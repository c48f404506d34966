import CategorialChart.Category.Inventory
import CategorialChart.Proofs.Category.RoundTrip
import CategorialChart.Proofs.Text.Lines

/-! # What an inventory lists

`Category.parseInventory` reads line by line. `InventoryLine` says which lines there are and which
category a line lists, if any, and `Lists` which categories a text of such lines lists.

* `Derives.isSign`: a text of a category is not empty and has neither a blank nor a `#`, so nothing
  of it is lost by trimming, and it is not taken for a comment.
* `inventoryLine_iff`: what a line lists is seen from its trimmed text.
* `categoriesOf_append`, `categoriesOf_error`: lines are read one after the other, up to the first
  that is bad.
* `parseInventory_lists`: the inventories that are read, how they are put together, and which line
  decides the error of any other. -/

namespace CategorialChart.Category

open Text

/-! ### The characters of a category -/

/-- A character that the notation has. -/
def IsSign (c : Char) : Prop :=
  c.isAlpha = true ∨ c ∈ [',', '.', ';', ':', '[', ']', '(', ')', '/', '\\']

theorem IsSign.not_blank {c : Char} (h : IsSign c) : isBlank c = false ∧ c ≠ '#' := by
  rcases h with h | h
  · refine ⟨isBlank_of_isAlpha h, ?_⟩
    rintro rfl
    cases h
  · simp only [List.mem_cons, List.not_mem_nil, or_false] at h
    rcases h with rfl | rfl | rfl | rfl | rfl | rfl | rfl | rfl | rfl | rfl <;> decide

theorem IsName.isSign {name : List Char} (h : IsName name) : ∀ c ∈ name, IsSign c := by
  rcases h with ⟨-, hrun⟩ | ⟨d, hd, rfl⟩
  · exact fun c hc => Or.inl (hrun c hc)
  · intro c hc
    rw [List.mem_singleton.mp hc]
    exact Or.inr (List.mem_append_left ['[', ']', '(', ')', '/', '\\'] hd)

theorem IsName.ne_nil {name : List Char} (h : IsName name) : name ≠ [] := by
  rcases h with ⟨hne, -⟩ | ⟨d, -, rfl⟩
  · exact hne
  · exact List.cons_ne_nil _ _

mutual

theorem DerivesPrimary.isSign : ∀ {s : List Char} {c : Category}, DerivesPrimary s c →
    s ≠ [] ∧ ∀ x ∈ s, IsSign x
  | _, _, .plain hname => ⟨hname.ne_nil, hname.isSign⟩
  | _, _, .featured hname hfeature => by
    refine ⟨by simp, ?_⟩
    simp only [List.forall_mem_append, List.forall_mem_cons]
    exact ⟨hname.isSign, Or.inr (by simp), fun x hx => Or.inl (hfeature.2 x hx), Or.inr (by simp),
      by simp⟩
  | _, _, .enclosed hs => by
    refine ⟨List.cons_ne_nil _ _, ?_⟩
    simp only [List.forall_mem_append, List.forall_mem_cons]
    exact ⟨Or.inr (by simp), hs.isSign.2, Or.inr (by simp), by simp⟩

/-- **The text of a category** is not empty and has only characters of the notation. -/
theorem Derives.isSign : ∀ {s : List Char} {c : Category}, Derives s c →
    s ≠ [] ∧ ∀ x ∈ s, IsSign x
  | _, _, .primary hs => hs.isSign
  | _, _, .slash d hs ht => by
    refine ⟨by simp, ?_⟩
    simp only [List.forall_mem_append, List.forall_mem_cons]
    refine ⟨hs.isSign.2, Or.inr ?_, ht.isSign.2⟩
    cases d <;> simp [Slash.char]

end

/-! ### Lines -/

/-- **A line of an inventory**, with what it lists: a blank line, a comment, or a category between
blanks, spelled or written in any other way. -/
inductive InventoryLine : List Char → List Category → Prop
  | blank {s : List Char} : Blanks s → InventoryLine s []
  | comment {before : List Char} (s : List Char) : Blanks before →
      InventoryLine (before ++ '#' :: s) []
  | spelled {before after : List Char} {c : Category} : Blanks before → Blanks after →
      c.WellFormed → InventoryLine (before ++ c.spell ++ after) [c]
  | written {before s after : List Char} {c : Category} : Blanks before → Blanks after →
      parse (String.ofList s) = .ok c → InventoryLine (before ++ s ++ after) [c]

/-- **The text lists the categories**, in order: it consists of lines of an inventory, separated by
line feeds or by carriage returns with line feeds. -/
inductive Lists : List Char → List Category → Prop
  | last {line : List Char} {cs : List Category} : '\n' ∉ line → InventoryLine line cs →
      Lists line cs
  | more {line ending rest : List Char} {cs cs' : List Category} : '\n' ∉ line →
      InventoryLine line cs → ending ∈ [['\n'], ['\r', '\n']] → Lists rest cs' →
      Lists (line ++ ending ++ rest) (cs ++ cs')

/-- The line lists no category: it is blank, or a comment. -/
def Idle (line : List Char) : Prop := trim line = [] ∨ (trim line).head? = some '#'

instance (line : List Char) : Decidable (Idle line) :=
  inferInstanceAs (Decidable (_ ∨ _))

variable {line s : List Char} {c : Category} {cs : List Category} {e : ParseError}

/-- A carriage return at the end of a line does not count. -/
theorem InventoryLine.concat_return (h : InventoryLine line cs) :
    InventoryLine (line ++ ['\r']) cs := by
  cases h with
  | blank hs => exact .blank (hs.append blanks_return)
  | comment s hbefore =>
    rw [List.append_assoc, List.cons_append]
    exact .comment _ hbefore
  | spelled hbefore hafter hc =>
    rw [List.append_assoc]
    exact .spelled hbefore (hafter.append blanks_return) hc
  | written hbefore hafter hc =>
    rw [List.append_assoc]
    exact .written hbefore (hafter.append blanks_return) hc

theorem trim_of_derives {before after : List Char} (hbefore : Blanks before)
    (hafter : Blanks after) (h : Derives s c) :
    trim (before ++ s ++ after) = s ∧ ¬ Idle (before ++ s ++ after) := by
  obtain ⟨hne, hsign⟩ := h.isSign
  have htrim := trim_padded hbefore hafter hne fun x hx => (hsign x hx).not_blank.1
  refine ⟨htrim, ?_⟩
  rw [Idle, htrim]
  rintro (hnil | hhead)
  · exact hne hnil
  · exact (hsign '#' (List.mem_of_mem_head? hhead)).not_blank.2 rfl

/-- **What a line lists** is seen from its trimmed text. -/
theorem inventoryLine_iff : InventoryLine line cs ↔ Idle line ∧ cs = [] ∨
    ¬ Idle line ∧ ∃ c, parse (String.ofList (trim line)) = .ok c ∧ cs = [c] := by
  constructor
  · intro h
    cases h with
    | blank hs => exact Or.inl ⟨Or.inl (trim_of_blanks hs), rfl⟩
    | comment s hbefore =>
      obtain ⟨t, ht⟩ := trim_cons hbefore (c := '#') (by decide) s
      exact Or.inl ⟨Or.inr (by rw [ht]; rfl), rfl⟩
    | @spelled before after c hbefore hafter hc =>
      obtain ⟨htrim, hidle⟩ := trim_of_derives hbefore hafter hc.derives_spell
      exact Or.inr ⟨hidle, c, by rw [htrim]; exact parse_toString_iff.mpr hc, rfl⟩
    | @written before s after c hbefore hafter hc =>
      have hderives := parse_eq_ok_iff.mp hc
      rw [String.toList_ofList] at hderives
      obtain ⟨htrim, hidle⟩ := trim_of_derives hbefore hafter hderives
      exact Or.inr ⟨hidle, c, by rw [htrim]; exact hc, rfl⟩
  · obtain ⟨before, after, hbefore, hafter, hline⟩ := exists_trim line
    rintro (⟨hnil | hhead, rfl⟩ | ⟨-, c, hc, rfl⟩)
    · rw [hnil, List.append_nil] at hline
      rw [hline]
      exact .blank (hbefore.append hafter)
    · obtain ⟨rest, hrest⟩ := List.head?_eq_some_iff.mp hhead
      rw [hline, hrest, List.append_assoc]
      exact .comment _ hbefore
    · rw [hline]
      exact .written hbefore hafter hc

/-! ### Texts -/

/-- The categories of some lines. -/
def categoriesOf (lines : List (List Char)) : Except ParseError (List Category) :=
  ((lines.map trim).filter fun line => !line.isEmpty && line.head? != some '#').mapM
    fun line => parse (String.ofList line)

theorem parseInventory_eq (t : String) :
    parseInventory t = categoriesOf (splitLines t.toList) := rfl

/-- **Lines are read one after the other.** -/
theorem categoriesOf_append (lines more : List (List Char)) :
    categoriesOf (lines ++ more) =
      (categoriesOf lines).bind fun cs => (categoriesOf more).map (cs ++ ·) := by
  unfold categoriesOf
  rw [List.map_append, List.filter_append, List.mapM_append]
  rfl

theorem categoriesOf_singleton (line : List Char) : categoriesOf [line] =
    if Idle line then .ok [] else (parse (String.ofList (trim line))).map ([·]) := by
  unfold categoriesOf
  rw [List.map_singleton]
  by_cases h : Idle line
  · have hfilter : (!(trim line).isEmpty && (trim line).head? != some '#') = false := by
      rcases h with h | h <;> simp [h]
    rw [if_pos h, List.filter_cons, if_neg (by rw [hfilter]; exact Bool.false_ne_true)]
    rfl
  · have hfilter : (!(trim line).isEmpty && (trim line).head? != some '#') = true := by
      rw [Idle, not_or] at h
      simp [h.1, h.2]
    rw [if_neg h, List.filter_cons, if_pos hfilter, List.filter_nil, List.mapM_cons, List.mapM_nil]
    rcases parse (String.ofList (trim line)) with e | c <;> rfl

theorem categoriesOf_line : categoriesOf [line] = .ok cs ↔ InventoryLine line cs := by
  rw [categoriesOf_singleton, inventoryLine_iff]
  by_cases h : Idle line
  · simp [h, eq_comm]
  · rcases hp : parse (String.ofList (trim line)) with e | c <;> simp [h, Except.map, eq_comm]

/-- A line that lists nothing and is neither blank nor a comment. -/
theorem categoriesOf_bad : categoriesOf [line] = .error e ↔
    (¬ ∃ cs, InventoryLine line cs) ∧ parse (String.ofList (trim line)) = .error e := by
  simp only [← categoriesOf_line, categoriesOf_singleton]
  by_cases h : Idle line
  · simp [h]
  · rcases hp : parse (String.ofList (trim line)) with e | c <;> simp [h, Except.map]

/-- **The first bad line** decides the error. -/
theorem categoriesOf_error {lines : List (List Char)} : categoriesOf lines = .error e ↔
    ∃ before line after, lines = before ++ line :: after ∧
      (∀ l ∈ before, ∃ cs, InventoryLine l cs) ∧ (¬ ∃ cs, InventoryLine line cs) ∧
      parse (String.ofList (trim line)) = .error e := by
  constructor
  · intro h
    induction lines with
    | nil => cases h
    | cons l lines ih =>
      rw [← List.singleton_append, categoriesOf_append] at h
      rcases hl : categoriesOf [l] with e' | cs
      · rw [hl] at h
        cases h
        exact ⟨[], l, lines, rfl, by simp, categoriesOf_bad.mp hl⟩
      · rw [hl] at h
        rcases hlines : categoriesOf lines with e' | cs'
        · simp only [Except.bind, hlines] at h
          cases h
          obtain ⟨before, line, after, rfl, hbefore, hbad⟩ := ih hlines
          refine ⟨l :: before, line, after, rfl, ?_, hbad⟩
          exact List.forall_mem_cons.mpr ⟨⟨cs, categoriesOf_line.mp hl⟩, hbefore⟩
        · simp only [Except.bind, hlines] at h
          cases h
  · rintro ⟨before, line, after, rfl, hbefore, hbad⟩
    induction before with
    | nil =>
      rw [List.nil_append, ← List.singleton_append, categoriesOf_append, categoriesOf_bad.mpr hbad]
      rfl
    | cons l before ih =>
      obtain ⟨⟨cs, hl⟩, hbefore⟩ := List.forall_mem_cons.mp hbefore
      rw [List.cons_append, ← List.singleton_append, categoriesOf_append,
        categoriesOf_line.mpr hl]
      simp only [Except.bind, ih hbefore]
      rfl

theorem categoriesOf_first {line : List Char} (h : '\n' ∉ line) (rest : List Char) :
    categoriesOf (splitLines (line ++ '\n' :: rest)) =
      (categoriesOf [line]).bind fun cs => (categoriesOf (splitLines rest)).map (cs ++ ·) := by
  rw [splitLines_append, splitLines_of_not_mem h, categoriesOf_append]

theorem Lists.categoriesOf {t : List Char} (h : Lists t cs) :
    categoriesOf (splitLines t) = .ok cs := by
  induction h with
  | last hline h => rw [splitLines_of_not_mem hline, categoriesOf_line.mpr h]
  | @more line ending rest cs cs' hline h hending _ ih =>
    simp only [List.mem_cons, List.not_mem_nil, or_false] at hending
    rcases hending with rfl | rfl
    · rw [List.append_assoc, List.singleton_append, categoriesOf_first hline,
        categoriesOf_line.mpr h, ih]
      rfl
    · have hreturn : '\n' ∉ line ++ ['\r'] := by simpa using hline
      have heq : line ++ ['\r', '\n'] ++ rest = line ++ ['\r'] ++ '\n' :: rest := by simp
      rw [heq, categoriesOf_first hreturn, categoriesOf_line.mpr h.concat_return, ih]
      rfl

/-- **The texts that are read** are those that list categories. -/
theorem categoriesOf_iff : ∀ {t : List Char} {cs : List Category},
    categoriesOf (splitLines t) = .ok cs ↔ Lists t cs
  | t, cs => by
    refine ⟨fun h => ?_, Lists.categoriesOf⟩
    rcases exists_line t with hline | ⟨line, rest, hline, ht⟩
    · rw [splitLines_of_not_mem hline, categoriesOf_line] at h
      exact .last hline h
    · subst ht
      rw [categoriesOf_first hline] at h
      rcases hl : Category.categoriesOf [line] with e | first
      · rw [hl] at h
        cases h
      rcases hrest : Category.categoriesOf (splitLines rest) with e | others
      · simp only [hl, hrest, Except.bind] at h
        cases h
      simp only [hl, hrest, Except.bind] at h
      cases h
      rw [List.append_cons]
      exact .more hline (categoriesOf_line.mp hl) List.mem_cons_self (categoriesOf_iff.mp hrest)
termination_by t => t.length
decreasing_by
  subst ht
  simp only [List.length_append, List.length_cons]
  omega

/-- **Inventories.** A text is read as the categories that its lines list, blank lines and comments
among them, whatever blanks stand around a category. Two texts joined by a line feed are read one
after the other: the categories of both, or the error of the first that has one. So the first line
that is neither blank, nor a comment, nor lists a category decides the error, and the error carries
this line, trimmed. -/
theorem parseInventory_lists :
    (∀ (t : String) (cs : List Category), parseInventory t = .ok cs ↔ Lists t.toList cs) ∧
      (∀ a b : String, parseInventory (a ++ "\n" ++ b) =
        (parseInventory a).bind fun cs => (parseInventory b).map (cs ++ ·)) ∧
      ∀ (t : String) (e : ParseError), parseInventory t = .error e ↔
        ∃ before line after, splitLines t.toList = before ++ line :: after ∧
          (∀ l ∈ before, ∃ cs, InventoryLine l cs) ∧ (¬ ∃ cs, InventoryLine line cs) ∧
          parse (String.ofList (trim line)) = .error e ∧ e.text = String.ofList (trim line) := by
  refine ⟨fun t cs => categoriesOf_iff, fun a b => ?_, fun t e => ?_⟩
  · have hlist : (a ++ "\n" ++ b).toList = a.toList ++ '\n' :: b.toList := by
      rw [String.toList_append, String.toList_append, List.append_assoc]
      rfl
    rw [parseInventory_eq, hlist, splitLines_append, categoriesOf_append]
    rfl
  · rw [parseInventory_eq, categoriesOf_error]
    constructor
    · rintro ⟨before, line, after, hlines, hbefore, hbad, he⟩
      exact ⟨before, line, after, hlines, hbefore, hbad, he, text_of_parse he⟩
    · rintro ⟨before, line, after, hlines, hbefore, hbad, he, -⟩
      exact ⟨before, line, after, hlines, hbefore, hbad, he⟩

/-- A comment, a category between blanks, a blank line, and a category at the end of the text. -/
theorem parseInventory_lists_mixed :
    parseInventory "# words\r\n\u2003N \n\t\nNP/N" =
      .ok [.atom "N" none, .functor (.atom "NP" none) .forward (.atom "N" none)] := by
  have hn : WellFormed (.atom "N" none) := Or.inl ⟨by simp, by simp⟩
  have hnp : WellFormed (.atom "NP" none) := Or.inl ⟨by simp, by simp⟩
  have hfunctor : WellFormed (.functor (.atom "NP" none) .forward (.atom "N" none)) := ⟨hnp, hn⟩
  have hlast : Lists ['N', 'P', '/', 'N'] _ :=
    .last (by simp) (@InventoryLine.spelled [] [] _ (by decide) (by decide) hfunctor)
  have hblank : Lists (['\t'] ++ ['\n'] ++ ['N', 'P', '/', 'N']) _ :=
    .more (by simp) (.blank (by decide)) (by simp) hlast
  have hfirst : Lists (['\u2003', 'N', ' '] ++ ['\n'] ++ _) _ :=
    .more (by simp) (@InventoryLine.spelled ['\u2003'] [' '] _ (by decide) (by decide) hn)
      (by simp) hblank
  have hcomment : Lists (['#', ' ', 'w', 'o', 'r', 'd', 's'] ++ ['\r', '\n'] ++ _) _ :=
    .more (by simp) (@InventoryLine.comment [] _ (by decide)) (by simp) hfirst
  exact (parseInventory_lists.1 _ _).mpr hcomment

end CategorialChart.Category
