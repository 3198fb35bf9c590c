import TablePipeline.Proofs.JsonText
/-!
# Brackets in JSON texts

`textNesting` counts open brackets along a text, without a look at what the text means. For the text
of a value it is how deep arrays and objects nest in the value (`textNesting_pretty`).
-/

namespace TablePipeline.Json

/-- Where a character of a text stands. -/
inductive Place
  | outside
  | quoted
  | escaped

/-- Where the next character stands. -/
def Place.after : Place → Char → Place
  | .outside, c => if c = '"' then .quoted else .outside
  | .quoted, c => if c = '"' then .outside else if c = '\\' then .escaped else .quoted
  | .escaped, _ => .quoted

/-- The most brackets that are open at once in a text that starts at the given place, where `depth`
of them are open. Brackets in quotes do not count. -/
def deepest : Place → Nat → List Char → Nat
  | _, depth, [] => depth
  | .outside, depth, c :: cs =>
    if c = '[' ∨ c = '{' then deepest .outside (depth + 1) cs
    else if c = ']' ∨ c = '}' then max depth (deepest .outside (depth - 1) cs)
    else deepest (Place.after .outside c) depth cs
  | place, depth, c :: cs => deepest (place.after c) depth cs

def textNesting (text : String) : Nat := deepest .outside 0 text.toList

/-- The character neither opens nor closes anything. -/
def isPlain (c : Char) : Bool := c ∉ ['"', '[', '{', ']', '}']

variable {place : Place} {depth : Nat} {cs rest : List Char}

theorem le_deepest : depth ≤ deepest place depth cs := by
  induction cs generalizing place depth with
  | nil => cases place <;> exact Nat.le_refl depth
  | cons c cs ih =>
    cases place with
    | outside =>
      rw [deepest]
      split
      · exact Nat.le_of_succ_le ih
      split
      · exact Nat.le_max_left ..
      · exact ih
    | quoted | escaped => exact ih

section Parts

theorem isPlain_iff {c : Char} :
    isPlain c = true ↔ c ≠ '"' ∧ c ≠ '[' ∧ c ≠ '{' ∧ c ≠ ']' ∧ c ≠ '}' := by
  simp [isPlain]

theorem deepest_cons_plain (c : Char) (h : isPlain c = true) :
    deepest .outside depth (c :: cs) = deepest .outside depth cs := by
  obtain ⟨hquote, hopen₁, hopen₂, hclose₁, hclose₂⟩ := isPlain_iff.mp h
  rw [deepest, if_neg (not_or.mpr ⟨hopen₁, hopen₂⟩), if_neg (not_or.mpr ⟨hclose₁, hclose₂⟩),
    Place.after, if_neg hquote]

theorem deepest_plain {front : List Char} (h : ∀ c ∈ front, isPlain c = true) :
    deepest .outside depth (front ++ rest) = deepest .outside depth rest := by
  induction front with
  | nil => rfl
  | cons c front ih =>
    obtain ⟨hc, hfront⟩ := List.forall_mem_cons.mp h
    rw [List.cons_append, deepest_cons_plain c hc, ih hfront]

theorem deepest_open {c : Char} (h : c = '[' ∨ c = '{') :
    deepest .outside depth (c :: cs) = deepest .outside (depth + 1) cs := by
  rw [deepest, if_pos h]

theorem isPlain_newline (level : Nat) : ∀ c ∈ newline level, isPlain c = true := by
  intro c hc
  rcases List.mem_cons.mp hc with rfl | hc
  · decide
  · rw [List.eq_of_mem_replicate hc]
    decide

theorem isPlain_of_isMark {c : Char} (h : Numeral.isMark c = true) : isPlain c = true := by
  rw [isPlain_iff]
  refine ⟨?_, ?_, ?_, ?_, ?_⟩ <;>
    · rintro rfl
      exact absurd h (by decide)

theorem deepest_quoted {c : Char} (hquote : c ≠ '"') (hslash : c ≠ '\\') :
    deepest .quoted depth (c :: cs) = deepest .quoted depth cs := by
  rw [deepest.eq_def]
  simp only [Place.after, if_neg hquote, if_neg hslash]

theorem deepest_escape (c : Char) :
    deepest .quoted depth (escape c ++ rest) = deepest .quoted depth rest := by
  unfold escape
  -- The characters with a letter of their own.
  iterate 7
    split
    · rfl
  split
  · next hlow =>
    have hdigit : ∀ n < 16, n.digitChar ≠ '"' ∧ n.digitChar ≠ '\\' := by decide
    have hhigh := hdigit (c.toNat / 16) (by omega)
    have hlast := hdigit (c.toNat % 16) (by omega)
    change deepest .quoted depth (Nat.digitChar (c.toNat / 16) ::
      Nat.digitChar (c.toNat % 16) :: rest) = _
    rw [deepest_quoted hhigh.1 hhigh.2, deepest_quoted hlast.1 hlast.2]
  · next hquote hslash _ _ _ _ _ _ => exact deepest_quoted hquote hslash

theorem deepest_quote (s : String) :
    deepest .outside depth (quote s ++ rest) = deepest .outside depth rest := by
  have hinner : ∀ cs : List Char, deepest .quoted depth (cs.flatMap escape ++ '"' :: rest)
      = deepest .outside depth rest := by
    intro cs
    induction cs with
    | nil => rfl
    | cons c cs ih => rw [List.flatMap_cons, List.append_assoc, deepest_escape, ih]
  simp only [quote, List.cons_append, List.append_assoc, List.nil_append]
  exact hinner s.toList

end Parts

mutual

/-- The text of a value opens as many brackets at once as arrays and objects nest in the value. -/
theorem deepest_pretty : ∀ (j : Json), j.ReadsBack → ∀ (level depth : Nat) (rest : List Char),
    deepest .outside depth (prettyChars level j ++ rest)
      = max (depth + j.nesting) (deepest .outside depth rest)
  | .null, _, level, depth, rest => by
    have hword : deepest .outside depth (prettyChars level .null ++ rest)
        = deepest .outside depth rest := rfl
    rw [hword, nesting]
    exact (Nat.max_eq_right le_deepest).symm
  | .bool b, _, level, depth, rest => by
    have hword : deepest .outside depth (prettyChars level (.bool b) ++ rest)
        = deepest .outside depth rest := by
      cases b <;> rfl
    rw [hword, nesting]
    exact (Nat.max_eq_right le_deepest).symm
  | .number n, hn, level, depth, rest => by
    have hplain : ∀ c ∈ n.write, isPlain c = true := fun c hc =>
      isPlain_of_isMark (Number.ReadsBack.isMark hn c hc)
    rw [prettyChars, deepest_plain hplain, nesting]
    exact (Nat.max_eq_right le_deepest).symm
  | .string s, _, level, depth, rest => by
    rw [prettyChars, deepest_quote, nesting]
    exact (Nat.max_eq_right le_deepest).symm
  | .array [], _, level, depth, rest => rfl
  | .array (item :: items), ⟨hitem, hitems⟩, level, depth, rest => by
    have hrest := deepest_prettyItems items hitems level depth rest
    have hvalue := deepest_pretty item hitem (level + 1) (depth + 1)
      (prettyItems level items ++ rest)
    rw [prettyChars, nesting, itemsNesting]
    simp only [List.cons_append, List.append_assoc]
    rw [deepest_open (.inl rfl), deepest_plain (isPlain_newline _), hvalue, hrest]
    omega
  | .object [], _, level, depth, rest => rfl
  | .object ((key, value) :: members), ⟨hvalue, hmembers⟩, level, depth, rest => by
    have hrest := deepest_prettyMembers members hmembers level depth rest
    have hinner := deepest_pretty value hvalue (level + 1) (depth + 1)
      (prettyMembers level members ++ rest)
    rw [prettyChars, nesting, membersNesting]
    simp only [List.cons_append, List.append_assoc]
    rw [deepest_open (.inr rfl), deepest_plain (isPlain_newline _), deepest_quote,
      deepest_cons_plain ':' (by decide), deepest_cons_plain ' ' (by decide), hinner, hrest]
    omega

theorem deepest_prettyItems : ∀ (items : List Json), ItemsReadBack items →
    ∀ (level depth : Nat) (rest : List Char),
    deepest .outside (depth + 1) (prettyItems level items ++ rest)
      = max (depth + 1 + itemsNesting items) (deepest .outside depth rest)
  | [], _, level, depth, rest => by
    rw [prettyItems, List.append_assoc, deepest_plain (isPlain_newline _), itemsNesting]
    rfl
  | item :: items, ⟨hitem, hitems⟩, level, depth, rest => by
    have hrest := deepest_prettyItems items hitems level depth rest
    have hvalue := deepest_pretty item hitem (level + 1) (depth + 1)
      (prettyItems level items ++ rest)
    rw [prettyItems, itemsNesting]
    simp only [List.cons_append, List.append_assoc]
    rw [deepest_cons_plain ',' (by decide), deepest_plain (isPlain_newline _), hvalue, hrest]
    omega

theorem deepest_prettyMembers : ∀ (members : List (String × Json)), MembersReadBack members →
    ∀ (level depth : Nat) (rest : List Char),
    deepest .outside (depth + 1) (prettyMembers level members ++ rest)
      = max (depth + 1 + membersNesting members) (deepest .outside depth rest)
  | [], _, level, depth, rest => by
    rw [prettyMembers, List.append_assoc, deepest_plain (isPlain_newline _), membersNesting]
    rfl
  | (key, value) :: members, ⟨hvalue, hmembers⟩, level, depth, rest => by
    have hrest := deepest_prettyMembers members hmembers level depth rest
    have hinner := deepest_pretty value hvalue (level + 1) (depth + 1)
      (prettyMembers level members ++ rest)
    rw [prettyMembers, membersNesting]
    simp only [List.cons_append, List.append_assoc]
    rw [deepest_cons_plain ',' (by decide), deepest_plain (isPlain_newline _), deepest_quote,
      deepest_cons_plain ':' (by decide), deepest_cons_plain ' ' (by decide), hinner, hrest]
    omega

end

theorem textNesting_pretty {j : Json} (hj : j.ReadsBack) : textNesting j.pretty = j.nesting := by
  have hdeepest := deepest_pretty j hj 0 0 []
  rw [List.append_nil] at hdeepest
  rw [textNesting, pretty, String.toList_ofList, hdeepest, deepest]
  omega

end TablePipeline.Json
