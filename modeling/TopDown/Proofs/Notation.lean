import TopDown.Grammar.Sample

namespace TopDown

/-- What the notation has a character for: capital letters as variables, and as terminals all that
is not blank and means nothing else. -/
def Sym.IsPlain : Sym Char Char → Prop
  | .term t => Text.isBlank t = false ∧ t ≠ 'ε' ∧ ¬('A' ≤ t ∧ t ≤ 'Z')
  | .var v => 'A' ≤ v ∧ v ≤ 'Z'
  | .eps => True

instance : (s : Sym Char Char) → Decidable s.IsPlain
  | .term t => inferInstanceAs (Decidable (_ ∧ t ≠ 'ε' ∧ ¬('A' ≤ t ∧ t ≤ 'Z')))
  | .var v => inferInstanceAs (Decidable ('A' ≤ v ∧ v ≤ 'Z'))
  | .eps => isTrue trivial

def Text.AllBlank (text : String) : Prop := ∀ c ∈ text.toList, isBlank c = true

instance (text : String) : Decidable (Text.AllBlank text) :=
  decidable_of_iff (text.toList.all Text.isBlank = true) List.all_eq_true

/-- The text has the symbols as they are printed, in their order and with nothing but blanks around
them. -/
inductive Shows : List (Sym Char Char) → String → Prop where
  | nil {gap : String} (blank : Text.AllBlank gap) : Shows [] gap
  | cons {gap rest : String} {s : Sym Char Char} {x : List (Sym Char Char)}
    (blank : Text.AllBlank gap) (shown : Shows x rest) : Shows (s :: x) (gap ++ toString s ++ rest)

section Characters

variable {c : Char} {s : Sym Char Char}

theorem isUpper_iff : c.isUpper = true ↔ 'A' ≤ c ∧ c ≤ 'Z' := decide_eq_true_iff

theorem not_isBlank_of_capital (h : 'A' ≤ c ∧ c ≤ 'Z') : Text.isBlank c = false := by
  have low : 65 ≤ c.toNat := h.1
  have high : c.toNat ≤ 90 := h.2
  simp only [Text.isBlank, Text.blankRanges, List.any_cons, List.any_nil, Bool.or_false,
    Bool.or_eq_false_iff, Bool.and_eq_false_imp, decide_eq_true_eq, decide_eq_false_iff_not,
    Nat.not_le]
  omega

theorem ofChar_plain (known : Text.isBlank c = false) :
    (Sym.ofChar c).IsPlain ∧ toString (Sym.ofChar c) = toString c := by
  unfold Sym.ofChar
  split
  · rename_i eps
    exact ⟨trivial, by rw [eps]; rfl⟩
  · rename_i other
    split
    · exact ⟨isUpper_iff.1 ‹_›, rfl⟩
    · exact ⟨⟨known, other, mt isUpper_iff.2 ‹_›⟩, rfl⟩

theorem exists_char (plain : s.IsPlain) :
    ∃ c, toString s = toString c ∧ Text.isBlank c = false ∧ Sym.ofChar c = s := by
  cases s with
  | term t =>
    obtain ⟨known, other, small⟩ := plain
    exact ⟨t, rfl, known, by rw [Sym.ofChar, if_neg other, if_neg (mt isUpper_iff.1 small)]⟩
  | var v =>
    have other : v ≠ 'ε' := by
      rintro rfl
      exact absurd plain (by decide)
    exact ⟨v, rfl, not_isBlank_of_capital plain,
      by rw [Sym.ofChar, if_neg other, if_pos (isUpper_iff.2 plain)]⟩
  | eps => exact ⟨'ε', rfl, by decide, rfl⟩

end Characters

section Reading

variable {s : Sym Char Char} {x : List (Sym Char Char)} {text gap : String}

theorem symbolsOfText_append (a b : String) :
    symbolsOfText (a ++ b) = symbolsOfText a ++ symbolsOfText b := by
  simp [symbolsOfText, symbolsOfChars]

theorem symbolsOfText_blank (blank : Text.AllBlank gap) : symbolsOfText gap = [] := by
  have none : gap.toList.filter (fun c => !Text.isBlank c) = [] :=
    List.filter_eq_nil_iff.2 fun c hc => by simp [blank c hc]
  rw [symbolsOfText, symbolsOfChars, none, List.map_nil]

theorem symbolsOfText_shown (plain : s.IsPlain) : symbolsOfText (toString s) = [s] := by
  obtain ⟨c, shown, known, rfl⟩ := exists_char plain
  rw [shown]
  simp [symbolsOfText, symbolsOfChars, toString, known]

theorem plain_of_mem_symbolsOfText (h : s ∈ symbolsOfText text) : s.IsPlain := by
  obtain ⟨c, hc, rfl⟩ := List.mem_map.1 h
  exact (ofChar_plain (by simpa using (List.mem_filter.1 hc).2)).1

theorem Shows.read (shown : Shows x text) (plain : ∀ s ∈ x, s.IsPlain) : symbolsOfText text = x := by
  induction shown with
  | nil blank => exact symbolsOfText_blank blank
  | cons blank _ ih =>
    obtain ⟨head, tail⟩ := List.forall_mem_cons.1 plain
    rw [symbolsOfText_append, symbolsOfText_append, symbolsOfText_blank blank,
      symbolsOfText_shown head, ih tail]
    rfl

theorem Shows.blank_append (blank : Text.AllBlank gap) (shown : Shows x text) :
    Shows x (gap ++ text) := by
  have both : ∀ {other}, Text.AllBlank other → Text.AllBlank (gap ++ other) := by
    intro other h c hc
    rw [String.toList_append, List.mem_append] at hc
    exact hc.elim (blank c) (h c)
  cases shown with
  | nil h => exact .nil (both h)
  | cons h rest =>
    rw [← String.append_assoc, ← String.append_assoc]
    exact .cons (both h) rest

theorem shows_symbolsOfChars (cs : List Char) : Shows (symbolsOfChars cs) (String.ofList cs) := by
  induction cs with
  | nil => exact .nil (by decide)
  | cons c cs ih =>
    have split : String.ofList (c :: cs) = toString c ++ String.ofList cs := String.ofList_cons ..
    rw [split]
    cases known : Text.isBlank c with
    | true =>
      have skipped : symbolsOfChars (c :: cs) = symbolsOfChars cs := by simp [symbolsOfChars, known]
      exact skipped ▸ ih.blank_append (by simp [Text.AllBlank, toString, known])
    | false =>
      have read : symbolsOfChars (c :: cs) = Sym.ofChar c :: symbolsOfChars cs := by
        simp [symbolsOfChars, known]
      have shown : Shows (Sym.ofChar c :: symbolsOfChars cs)
          ("" ++ toString (Sym.ofChar c) ++ String.ofList cs) := .cons (by decide) ih
      rwa [(ofChar_plain known).2, String.empty_append, ← read] at shown

theorem shows_symbolsOfText (text : String) : Shows (symbolsOfText text) text := by
  simpa [symbolsOfText] using shows_symbolsOfChars text.toList

theorem symbolsOfText_eq_iff :
    symbolsOfText text = x ↔ (∀ s ∈ x, s.IsPlain) ∧ Shows x text := by
  constructor
  · rintro rfl
    exact ⟨fun s => plain_of_mem_symbolsOfText, shows_symbolsOfText text⟩
  · rintro ⟨plain, shown⟩
    exact shown.read plain

end Reading

theorem exists_shows_body (p : Production Char Char) :
    ∃ rest, toString p = toString p.head ++ " ->" ++ rest ∧ Shows p.body rest := by
  have general : ∀ (x : List (Sym Char Char)) (text : String), ∃ rest,
      x.foldl (fun text s => text ++ " " ++ toString s) text = text ++ rest ∧ Shows x rest := by
    intro x
    induction x with
    | nil => exact fun text => ⟨"", by simp, .nil (by decide)⟩
    | cons s x ih =>
      intro text
      obtain ⟨rest, printed, shown⟩ := ih (text ++ " " ++ toString s)
      refine ⟨" " ++ toString s ++ rest, ?_, .cons (by decide) shown⟩
      rw [List.foldl_cons, printed]
      simp only [String.append_assoc]
  exact general p.body _

/-- A production whose body the notation can name is read back from behind its arrow. Every text is
read as symbols that the notation can name, and the texts that show these are those that are read
alike. -/
theorem notation_read_back :
    (∀ p : Production Char Char, (∀ s ∈ p.body, s.IsPlain) →
      ∃ rest, toString p = toString p.head ++ " ->" ++ rest ∧ symbolsOfText rest = p.body) ∧
    (∀ text, ∀ s ∈ symbolsOfText text, s.IsPlain) ∧
    ∀ text text', Shows (symbolsOfText text) text' ↔ symbolsOfText text' = symbolsOfText text := by
  refine ⟨fun p plain => ?_, fun text s => plain_of_mem_symbolsOfText, fun text text' => ?_⟩
  · obtain ⟨rest, printed, shown⟩ := exists_shows_body p
    exact ⟨rest, printed, shown.read plain⟩
  · rw [symbolsOfText_eq_iff]
    exact (and_iff_right fun s => plain_of_mem_symbolsOfText).symm

theorem spaced_read_back :
    (∃ rest, toString (⟨'S', [.term '+', .eps, .var 'A', .eps]⟩ : Production Char Char) =
      toString 'S' ++ " ->" ++ rest ∧ symbolsOfText rest = [.term '+', .eps, .var 'A', .eps]) ∧
    Shows (symbolsOfText "+εAε") "\t+ε\n A ε " := by
  obtain ⟨printed, _, shows_iff⟩ := notation_read_back
  exact ⟨printed _ (by decide), (shows_iff _ _).2 (by decide)⟩

end TopDown
