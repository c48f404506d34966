import CategorialChart.Category.Reading
import CategorialChart.Text.Blank

/-!
# Category inventories

A grammar lists its categories one on a line. Blanks around a category, blank lines and comments,
which are lines that begin with `#`, do not count.

* `Category.inventoryLines`: the trimmed lines of a text that hold a category.
* `Category.parseInventory`: the categories of a text in order, or the error of the first bad line.
-/

namespace CategorialChart.Category

open Text

/-- The trimmed lines that are neither blank nor comments. -/
def inventoryLines (cs : List Char) : List (List Char) :=
  ((splitLines cs).map trim).filter fun line => !line.isEmpty && line.head? != some '#'

/-- **The categories of an inventory.** The first line that writes no category decides the error. -/
def parseInventory (text : String) : Except ParseError (List Category) :=
  (inventoryLines text.toList).mapM fun line => parse (String.ofList line)

end CategorialChart.Category
