import CategorialChart.Proofs.Category.Halting

/-! # Where a text is rejected

An error of `Category.parse` splits the text in what stands before its offset and what is left. The
part before begins the notation of a category, and with the next token of the rest it no longer
does: the reader stops at the first token that cannot stand where it is.

* `Halts.not_derives`: no category is written by a text that goes on where a reading has halted. The
  lemmas after it compare the three ways to halt by what can follow.
* `ParseError.reason_inj`: the text of a reason tells which of them it was.
* `parse_error_located`: all of it, for a text and the offset of its error. -/

namespace CategorialChart.Category

variable {w before after : List Char} {c : Category} {f : Fault}

/-! ### What can follow -/

/-- Only the first character that is left halts a reading. -/
theorem Halts.congr (h : Halts after before f) (hhead : w.head? = after.head?) :
    ∃ f', Halts w before f' := by
  have hapart : ∀ {v : List Char}, Apart v after → Apart v w := by
    unfold Apart
    rw [hhead]
    exact id
  cases h with
  | expected hs hu hstart => exact ⟨_, .expected hs hu (hhead ▸ hstart)⟩
  | missing hs hu hv ha hslash hclose =>
    exact ⟨_, .missing hs hu hv (hapart ha) (hhead ▸ hslash) (hhead ▸ hclose)⟩
  | unexpected hv ha hslash hne =>
    refine ⟨_, .unexpected hv (hapart ha) (hhead ▸ hslash) ?_⟩
    rintro rfl
    exact hne (List.head?_eq_none_iff.mp hhead.symm)

/-- **A reading that halts** rejects the text, whatever follows. A bracket is left out: with it, a
feature may follow a name. -/
theorem Halts.not_derives (h : Halts after before f) (hbracket : after.head? ≠ some '[') :
    ¬ Derives (before ++ after) c := by
  cases h with
  | expected hs hu hstart =>
    have hparen : ∀ inner, after ≠ '(' :: inner := by
      rintro inner rfl
      exact (hstart '(' rfl).1 rfl
    have hname : splitName after = none :=
      splitName_eq_none.mpr fun c hc => (hstart c hc).2
    rw [List.append_assoc]
    exact not_derives_of_read_error (hs.read_error (hu.read_error (primary_eq_error hparen hname)))
  | @missing s u v _ hs hu hv hapart hslash hclose =>
    obtain ⟨hlt, hread⟩ := read_whole hv ⟨hapart, hbracket⟩ (splitSlash_eq_none.mpr hslash)
    have hprimary : primary ('(' :: (v ++ after)) = .error ⟨.missingParen, after⟩ :=
      (primary_of_read hread).trans (Reading.close_eq_error hclose)
    have heq : s ++ u ++ '(' :: v ++ after = s ++ (u ++ '(' :: (v ++ after)) := by simp
    rw [heq]
    exact not_derives_of_read_error (hs.read_error (hu.read_error hprimary))
  | unexpected hv hapart hslash hne =>
    obtain ⟨hlt, hread⟩ := read_whole hv ⟨hapart, hbracket⟩ (splitSlash_eq_none.mpr hslash)
    rw [← read_eq_ok_iff]
    rintro ⟨r, hr, hrest, -⟩
    cases hread.symm.trans hr
    exact hne hrest

theorem Halts.viable (h : Halts after before f) : Viable before := by
  cases h with
  | expected hs hu _ => exact (hs.viable_paren hu).of_append
  | missing hs hu hv _ _ _ =>
    have hviable := (hs.paren hu).viable hv
    rwa [List.append_assoc, List.singleton_append] at hviable
  | @unexpected _ c hv _ _ _ => exact ⟨[], c, by rwa [List.append_nil]⟩

/-- What was read is a category if and only if it is the rest that was not expected. -/
theorem Halts.derives_iff (h : Halts after before f) :
    (∃ c, Derives before c) ↔ f = .unexpected (String.ofList after) := by
  constructor
  · rintro ⟨c, hc⟩
    rw [← List.append_nil before] at hc
    cases h with
    | expected hs hu _ =>
      exact absurd hc (Halts.not_derives (.expected hs hu (by simp)) (by simp))
    | missing hs hu hv _ _ _ =>
      exact absurd hc (Halts.not_derives
        (.missing hs hu hv (stops_nil.ends _).apart (by simp) (by simp)) (by simp))
    | unexpected => rfl
  · rintro rfl
    cases h with
    | @unexpected _ c hv _ _ _ => exact ⟨c, hv⟩

theorem Halts.viable_open_iff (h : Halts after before f) :
    Viable (before ++ ['(']) ↔ f = .expectedCategory := by
  constructor
  · rintro ⟨more, c, hc⟩
    rw [List.append_assoc, List.singleton_append] at hc
    have hapart : ∀ v, Apart v ('(' :: more) := fun v => apart_of_head (by simp)
    have hslash : ∀ d : Slash, ('(' :: more).head? ≠ some d.char := by
      intro d
      cases d <;> simp [Slash.char]
    cases h with
    | expected => rfl
    | missing hs hu hv _ _ _ =>
      exact absurd hc (Halts.not_derives (.missing hs hu hv (hapart _) hslash (by simp)) (by simp))
    | unexpected hv _ _ _ =>
      exact absurd hc (Halts.not_derives (.unexpected hv (hapart _) hslash (by simp)) (by simp))
  · rintro rfl
    cases h with
    | expected hs hu _ => exact hs.viable_paren hu

theorem Halts.viable_close_iff (h : Halts after before f) :
    (¬ ∃ c, Derives before c) ∧ Viable (before ++ [')']) ↔ f = .missingParen := by
  rw [h.derives_iff]
  constructor
  · rintro ⟨hnot, more, c, hc⟩
    rw [List.append_assoc, List.singleton_append] at hc
    cases h with
    | expected hs hu _ =>
      exact absurd hc (Halts.not_derives (.expected hs hu (by simp [isMark])) (by simp))
    | missing => rfl
    | unexpected => exact absurd rfl hnot
  · rintro rfl
    refine ⟨by simp, ?_⟩
    cases h with
    | missing hs hu hv _ _ _ =>
      obtain ⟨a, ha⟩ := hu.derives (.enclosed hv)
      have hviable := hs.viable ha
      simpa using hviable

/-! ### Tokens -/

/-- A token of the notation: a parenthesis, a slash, or an atom. -/
inductive IsToken : List Char → Prop
  | sign {c : Char} : c ∈ ['(', ')', '/', '\\'] → IsToken [c]
  | plain {name : List Char} : IsName name → IsToken name
  | featured {name feature : List Char} : IsName name → IsFeature feature →
      IsToken (name ++ '[' :: (feature ++ [']']))

theorem IsName.head {name : List Char} (h : IsName name) :
    ∃ c rest, name = c :: rest ∧ c ≠ '[' := by
  rcases h with ⟨hne, hrun⟩ | ⟨c, hc, rfl⟩
  · obtain ⟨c, rest, rfl⟩ := List.exists_cons_of_ne_nil hne
    refine ⟨c, rest, rfl, ?_⟩
    rintro rfl
    have := hrun '[' List.mem_cons_self
    cases this
  · refine ⟨c, [], rfl, ?_⟩
    rintro rfl
    simp at hc

theorem IsToken.head {token : List Char} (h : IsToken token) :
    ∃ c rest, token = c :: rest ∧ c ≠ '[' := by
  cases h with
  | @sign c hc =>
    refine ⟨c, [], rfl, ?_⟩
    rintro rfl
    simp at hc
  | plain hname => exact hname.head
  | featured hname _ =>
    obtain ⟨c, rest, rfl, hc⟩ := hname.head
    exact ⟨c, _, List.cons_append, hc⟩

/-- **The token that comes next** cannot stand there. -/
theorem Halts.not_viable_token {token rest : List Char} (h : Halts (token ++ rest) before f)
    (htoken : IsToken token) : ¬ Viable (before ++ token) := by
  obtain ⟨d, tail, rfl, hd⟩ := htoken.head
  rintro ⟨more, c, hc⟩
  obtain ⟨f', h'⟩ := h.congr (w := d :: tail ++ more) rfl
  rw [List.append_assoc] at hc
  exact h'.not_derives (by simpa using hd) hc

/-! ### Whole texts -/

/-- The text is read as a category. -/
def Accepted (t : String) : Prop := ∃ c, parse t = .ok c

/-- Some text after this one makes it one that is read as a category. -/
def Completable (t : String) : Prop := ∃ more, Accepted (t ++ more)

theorem accepted_iff {t : String} : Accepted t ↔ ∃ c, Derives t.toList c := by
  unfold Accepted
  simp only [parse_eq_ok_iff]

theorem completable_iff {t : String} : Completable t ↔ Viable t.toList := by
  unfold Completable
  simp only [accepted_iff, String.toList_append]
  constructor
  · rintro ⟨more, c, hc⟩
    exact ⟨more.toList, c, hc⟩
  · rintro ⟨more, c, hc⟩
    exact ⟨String.ofList more, c, by rwa [String.toList_ofList]⟩

theorem utf8ByteSize_ofList (cs : List Char) :
    (String.ofList cs).utf8ByteSize = byteLength cs := by
  induction cs with
  | nil => rfl
  | cons c cs ih =>
    rw [String.ofList_cons, String.utf8ByteSize_append, String.utf8ByteSize_singleton, ih,
      byteLength]

/-! ### What is reported -/

/-- The first letter of the reasons for a fault. -/
def Fault.initial : Fault → Char
  | .expectedCategory => 'e'
  | .missingParen => 'm'
  | .unexpected _ => 'u'

theorem ParseError.head_reason (e : ParseError) :
    e.reason.toList.head? = some e.fault.initial := by
  obtain ⟨text, f, offset⟩ := e
  cases f with
  | expectedCategory =>
    show ("expected a category at offset " ++ toString offset : String).toList.head? = _
    rw [String.toList_append]
    rfl
  | missingParen =>
    show ("missing ')' at offset " ++ toString offset : String).toList.head? = _
    rw [String.toList_append]
    rfl
  | unexpected rest =>
    show ("unexpected '" ++ rest ++ "' at offset " ++ toString offset : String).toList.head? = _
    rw [String.toList_append, String.toList_append, String.toList_append]
    rfl

/-- At one offset, the text of the reason tells what is wrong. -/
theorem ParseError.reason_inj (e e' : ParseError) (ho : e.offset = e'.offset) :
    e.reason = e'.reason ↔ e.fault = e'.fault := by
  refine ⟨fun h => ?_, fun h => ?_⟩
  · have hinitial : e.fault.initial = e'.fault.initial := by
      have hhead := e.head_reason
      rw [h, e'.head_reason] at hhead
      exact (Option.some.inj hhead).symm
    obtain ⟨text, f, offset⟩ := e
    obtain ⟨text', f', offset'⟩ := e'
    obtain rfl : offset = offset' := ho
    cases f with
    | unexpected rest =>
      cases f' with
      | unexpected rest' =>
        have hlist : ("unexpected '" ++ rest ++ "' at offset " ++ toString offset : String).toList =
            ("unexpected '" ++ rest' ++ "' at offset " ++ toString offset : String).toList :=
          congrArg String.toList h
        simp only [String.toList_append, List.append_cancel_right_eq,
          List.append_cancel_left_eq] at hlist
        rw [String.toList_inj.mp hlist]
      | _ => cases hinitial
    | _ => cases f' <;> first | rfl | cases hinitial
  · obtain ⟨text, f, offset⟩ := e
    obtain ⟨text', f', offset'⟩ := e'
    obtain rfl : offset = offset' := ho
    obtain rfl : f = f' := h
    rfl

/-- One of three statements holds, and the other two do not. -/
def ExactlyOne (p q r : Prop) : Prop := p ∧ ¬ q ∧ ¬ r ∨ ¬ p ∧ q ∧ ¬ r ∨ ¬ p ∧ ¬ q ∧ r

/-- **Errors point at the right place.** The error of a text carries the text, and its offset splits
the text between two characters. The part before begins the notation of a category. If the rest
begins with a token, then the part before together with this token does not; a name or an atom need
not be taken as long as it goes. The reason says what the part before lacks: nothing, since it is a
category and the rest is too much; a closing parenthesis, which can follow and makes it one in the
end; or a category, so that another parenthesis can open. -/
theorem parse_error_located {t : String} {e : ParseError} (h : parse t = .error e) :
    e.text = t ∧ e.offset ≤ t.utf8ByteSize ∧ String.Pos.Raw.IsValid t ⟨e.offset⟩ ∧
      ∃ before after : String, t = before ++ after ∧ before.utf8ByteSize = e.offset ∧
        Completable before ∧
        (∀ token rest : String, IsToken token.toList → after = token ++ rest →
          ¬ Completable (before ++ token)) ∧
        (e.reason = s!"unexpected '{after}' at offset {e.offset}" ↔ Accepted before) ∧
        (e.reason = s!"missing ')' at offset {e.offset}" ↔
          ¬ Accepted before ∧ Completable (before ++ ")")) ∧
        (e.reason = s!"expected a category at offset {e.offset}" ↔ Completable (before ++ "(")) ∧
        ExactlyOne (Accepted before) (¬ Accepted before ∧ Completable (before ++ ")"))
          (Completable (before ++ "(")) := by
  obtain ⟨b, a, ht, ho, hhalts⟩ := parse_halts h
  have hsplit : t = String.ofList b ++ String.ofList a := by
    rw [← String.ofList_append, ← ht, String.ofList_toList]
  have hsize : (String.ofList b).utf8ByteSize = e.offset := (utf8ByteSize_ofList b).trans ho.symm
  have haccepted : Accepted (String.ofList b) ↔ e.fault = .unexpected (String.ofList a) := by
    rw [accepted_iff, String.toList_ofList]
    exact hhalts.derives_iff
  have hclose : ¬ Accepted (String.ofList b) ∧ Completable (String.ofList b ++ ")") ↔
      e.fault = .missingParen := by
    rw [accepted_iff, completable_iff, String.toList_append, String.toList_ofList]
    exact hhalts.viable_close_iff
  have hopen : Completable (String.ofList b ++ "(") ↔ e.fault = .expectedCategory := by
    rw [completable_iff, String.toList_append, String.toList_ofList]
    exact hhalts.viable_open_iff
  refine ⟨text_of_parse h, ?_, ?_, _, _, hsplit, hsize, ?_, fun token rest htoken hafter => ?_, ?_,
    ?_, ?_, ?_⟩
  · rw [hsplit, String.utf8ByteSize_append, hsize]
    exact Nat.le_add_right _ _
  · rw [String.Pos.Raw.isValid_iff_exists_append]
    exact ⟨_, _, hsplit, by rw [← hsize]; rfl⟩
  · rw [completable_iff, String.toList_ofList]
    exact hhalts.viable
  · have ha : a = token.toList ++ rest.toList := by
      rw [← String.toList_append, ← hafter, String.toList_ofList]
    subst ha
    rw [completable_iff, String.toList_append, String.toList_ofList]
    exact hhalts.not_viable_token htoken
  · rw [haccepted]
    exact ParseError.reason_inj e ⟨t, .unexpected (String.ofList a), e.offset⟩ rfl
  · rw [hclose]
    exact ParseError.reason_inj e ⟨t, .missingParen, e.offset⟩ rfl
  · rw [hopen]
    exact ParseError.reason_inj e ⟨t, .expectedCategory, e.offset⟩ rfl
  · rw [hclose, hopen, haccepted]
    generalize e.fault = f at hhalts
    cases hhalts <;> simp [ExactlyOne]

/-- A parenthesis is missing after two bytes, in front of a bracket that opens no feature. -/
theorem parse_error_located_bracket :
    parse "(S[é" = .error ⟨"(S[é", .missingParen, 2⟩ ∧
      ∃ before after : String, "(S[é" = before ++ after ∧ before.utf8ByteSize = 2 ∧
        ¬ Accepted before ∧ Completable (before ++ ")") ∧ ¬ Completable (before ++ "(") := by
  have hatom : primary ['S', '[', 'é'] = .ok ⟨.atom "S" none, ['[', 'é'], by decide⟩ :=
    (primary_of_readAtom (by simp)).trans rfl
  have hread : read ['S', '[', 'é'] = .ok ⟨.atom "S" none, ['[', 'é'], by decide⟩ :=
    (read_of_primary hatom).trans (extend_of_splitSlash rfl)
  have hstuck : read ['(', 'S', '[', 'é'] = .error ⟨.missingParen, ['[', 'é']⟩ :=
    Lead.read_error (Or.inl rfl) ((primary_of_read hread).trans rfl)
  have hlist : "(S[é".toList = ['(', 'S', '[', 'é'] := by simp
  have h : parse "(S[é" = .error ⟨"(S[é", .missingParen, 2⟩ := by
    rw [parse, hlist, hstuck]
    rfl
  obtain ⟨-, -, -, before, after, hsplit, hsize, -, -, -, hclose, hopen, -⟩ := parse_error_located h
  obtain ⟨hnot, hviable⟩ := hclose.mp rfl
  refine ⟨h, before, after, hsplit, hsize, hnot, hviable, ?_⟩
  rw [← hopen]
  decide

end CategorialChart.Category
