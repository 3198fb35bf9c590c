import TablePipeline.Json.Raw
import TablePipeline.Proofs.Numeral
/-!
# Reading JSON texts back

The text of a value, with one item or member to a line, is read as the tree of the value
(`parse?_pretty`), whatever its strings hold, if its numbers read back. The tree becomes a value
again if it does not nest too deep (`isSome_keep?_toRaw`).
-/

namespace TablePipeline.Json

open Raw (skipBlanks scanUnits? charsOfUnits? scanString? scanValue? scanItems? scanMembers?)

section Strings

/-- Every character is read back from its escape. -/
theorem scanUnits?_escape (c : Char) (rest : List Char) :
    scanUnits? (escape c ++ rest)
      = (scanUnits? rest).map fun found => (c.toNat :: found.1, found.2) := by
  have hnext (n : Nat) : (scanUnits? rest).bind (fun found => some (n :: found.1, found.2))
      = (scanUnits? rest).map fun found => (n :: found.1, found.2) := by
    cases scanUnits? rest <;> rfl
  unfold escape
  -- The characters with a letter of their own.
  iterate 7
    split
    · next h =>
      subst h
      exact hnext _
  split
  · next hlow =>
    have hhex : ∀ n < 0x20, Text.natInBase? 16
        ['0', '0', Nat.digitChar (n / 16), Nat.digitChar (n % 16)] = some n := by decide
    simp only [List.cons_append, List.nil_append]
    rw [scanUnits?, hhex _ hlow]
    exact hnext _
  · next hquote hslash _ _ _ _ _ hlow =>
    rw [List.cons_append, List.nil_append, scanUnits?.eq_def]
    split
    · next heq => cases heq
    · next heq => exact absurd (List.cons.inj heq).1 hquote
    · next heq => exact absurd (List.cons.inj heq).1 hslash
    · next heq => exact absurd (List.cons.inj heq).1 hslash
    · next heq =>
      cases heq
      rw [if_neg hlow]
      exact hnext _

theorem scanUnits?_flatMap_escape (cs rest : List Char) :
    scanUnits? (cs.flatMap escape ++ '"' :: rest) = some (cs.map Char.toNat, rest) := by
  induction cs with
  | nil => rfl
  | cons c cs ih =>
    rw [List.flatMap_cons, List.append_assoc, scanUnits?_escape, ih]
    rfl

/-- No character is half of a pair of surrogates. -/
theorem not_surrogate (c : Char) :
    Raw.isLeading c.toNat = false ∧ Raw.isTrailing c.toNat = false := by
  have hvalid : c.toNat < 0xd800 ∨ 0xdfff < c.toNat ∧ c.toNat < 0x110000 := c.valid
  simp only [Raw.isLeading, Raw.isTrailing, Bool.and_eq_false_iff, decide_eq_false_iff_not]
  omega

theorem charsOfUnits?_toNat (cs : List Char) : charsOfUnits? (cs.map Char.toNat) = some cs := by
  induction cs with
  | nil => rfl
  | cons c cs ih =>
    obtain ⟨hleading, htrailing⟩ := not_surrogate c
    cases cs with
    | nil => simp [charsOfUnits?, hleading, htrailing]
    | cons d cs =>
      rw [List.map_cons, List.map_cons, charsOfUnits?, if_neg (by simp [hleading]),
        if_neg (by simp [htrailing]), ← List.map_cons, ih, Char.ofNat_toNat]
      rfl

/-- Every text is read back from its quotes. -/
theorem scanString?_quote (s : String) (rest : List Char) :
    scanString? (s.toList.flatMap escape ++ '"' :: rest) = some (some s, rest) := by
  rw [scanString?, scanUnits?_flatMap_escape]
  change some ((charsOfUnits? (s.toList.map Char.toNat)).map String.ofList, rest) = _
  rw [charsOfUnits?_toNat, Option.map_some, String.ofList_toList]

end Strings

section Trees

mutual

/-- How deep arrays and objects nest in a value. -/
def nesting : Json → Nat
  | .null | .bool _ | .number _ | .string _ => 0
  | .array items => itemsNesting items + 1
  | .object members => membersNesting members + 1

def itemsNesting : List Json → Nat
  | [] => 0
  | item :: items => max (nesting item) (itemsNesting items)

def membersNesting : List (String × Json) → Nat
  | [] => 0
  | (_, value) :: members => max (nesting value) (membersNesting members)

end

mutual

def toRaw : Json → Raw
  | .null => .null
  | .bool b => .bool b
  | .number n => .number (some n)
  | .string s => .string (some s)
  | .array items => .array (itemsToRaw items)
  | .object members => .object (membersToRaw members)

def itemsToRaw : List Json → List Raw
  | [] => []
  | item :: items => toRaw item :: itemsToRaw items

def membersToRaw : List (String × Json) → List (Option String × Raw)
  | [] => []
  | (key, value) :: members => (some key, toRaw value) :: membersToRaw members

end

mutual

/-- Every number in the value is read back from what is written for it. -/
def ReadsBack : Json → Prop
  | .null | .bool _ | .string _ => True
  | .number n => n.ReadsBack
  | .array items => ItemsReadBack items
  | .object members => MembersReadBack members

def ItemsReadBack : List Json → Prop
  | [] => True
  | item :: items => ReadsBack item ∧ ItemsReadBack items

def MembersReadBack : List (String × Json) → Prop
  | [] => True
  | (_, value) :: members => ReadsBack value ∧ MembersReadBack members

end

theorem itemsNesting_le {items : List Json} {d : Nat} :
    itemsNesting items ≤ d ↔ ∀ item ∈ items, item.nesting ≤ d := by
  induction items with
  | nil => simp [itemsNesting]
  | cons item items ih => rw [itemsNesting, Nat.max_le, ih, List.forall_mem_cons]

end Trees

section Scanning

open Numeral (Ended ended_cons)

variable {fuel level : Nat} {cs rest : List Char}

theorem skipBlanks_cons {c : Char} (h : Raw.isBlank c = false) :
    skipBlanks (c :: cs) = c :: cs := by
  rw [skipBlanks, List.dropWhile_cons, if_neg (by simp [h])]

theorem skipBlanks_newline (level : Nat) (cs : List Char) :
    skipBlanks (newline level ++ cs) = skipBlanks cs := by
  have hspaces : ∀ n, skipBlanks (List.replicate n ' ' ++ cs) = skipBlanks cs := by
    intro n
    induction n with
    | zero => rfl
    | succ n ih => exact ih
  exact hspaces _

/-- Blanks in front of a value do not matter. -/
theorem scanValue?_congr {cs cs' : List Char} (fuel : Nat) (h : skipBlanks cs = skipBlanks cs') :
    scanValue? fuel cs = scanValue? fuel cs' := by
  cases fuel with
  | zero => rfl
  | succ fuel => rw [scanValue?, scanValue?, h]

/-- Reads what follows an item or a member: the closing character, or a comma and more of them. -/
def scanAfter? {β : Type} (close : Char) (more : List Char → Option (List β × List Char))
    (cs : List Char) : Option (List β × List Char) :=
  match skipBlanks cs with
  | [] => none
  | c :: rest => if c = close then some ([], rest) else if c = ',' then more rest else none

section After

variable {β : Type} {close : Char} {more : List Char → Option (List β × List Char)}

theorem scanAfter?_eq_some {found : List β} (h : scanAfter? close more cs = some (found, rest)) :
    skipBlanks cs = close :: rest ∧ found = [] ∨
      ∃ cs', skipBlanks cs = ',' :: cs' ∧ more cs' = some (found, rest) := by
  unfold scanAfter? at h
  split at h
  · cases h
  next c cs' heq =>
  split at h
  · next hclose =>
    subst hclose
    cases h
    exact .inl ⟨heq, rfl⟩
  split at h
  · next hcomma =>
    subst hcomma
    exact .inr ⟨cs', heq, h⟩
  · cases h

theorem scanAfter?_close (level : Nat) (hclose : Raw.isBlank close = false) :
    scanAfter? close more (newline level ++ close :: rest) = some ([], rest) := by
  rw [scanAfter?, skipBlanks_newline, skipBlanks_cons hclose]
  exact if_pos rfl

theorem scanAfter?_comma (cs : List Char) (hclose : ',' ≠ close) :
    scanAfter? close more (',' :: cs) = more cs := by
  rw [scanAfter?, skipBlanks_cons (by decide)]
  simp only [if_neg hclose, if_pos]

end After

theorem scanItems?_succ {item : Raw} {items : List Raw} {r : List Char}
    (hitem : scanValue? fuel cs = some (item, r))
    (hitems : scanAfter? ']' (scanItems? fuel) r = some (items, rest)) :
    scanItems? (fuel + 1) cs = some (item :: items, rest) := by
  rw [scanItems?, hitem, Option.bind_eq_bind, Option.bind_some]
  rcases scanAfter?_eq_some hitems with ⟨hend, rfl⟩ | ⟨cs', hcomma, hscan⟩
  · simp only [hend]
    rfl
  · simp only [hcomma]
    rw [hscan]
    rfl

theorem scanMembers?_succ {key : String} {value : Raw} {members : List (Option String × Raw)}
    {r : List Char} (hvalue : scanValue? fuel cs = some (value, r))
    (hmembers : scanAfter? '}' (scanMembers? fuel) r = some (members, rest)) :
    scanMembers? (fuel + 1) (quote key ++ ':' :: ' ' :: cs)
      = some ((some key, value) :: members, rest) := by
  have hskip : skipBlanks (' ' :: cs) = skipBlanks cs := rfl
  have hblank : scanValue? fuel (' ' :: cs) = some (value, r) :=
    (scanValue?_congr fuel hskip).trans hvalue
  have hquote : skipBlanks (quote key ++ ':' :: ' ' :: cs)
      = '"' :: (key.toList.flatMap escape ++ '"' :: ':' :: ' ' :: cs) := by
    simp only [quote, List.cons_append, List.append_assoc, List.nil_append]
    exact skipBlanks_cons (by decide)
  have hcolon : skipBlanks (':' :: ' ' :: cs) = ':' :: ' ' :: cs := skipBlanks_cons (by decide)
  rw [scanMembers?, hquote]
  simp only [scanString?_quote, Option.bind_eq_bind, Option.bind_some, hcolon, hblank]
  rcases scanAfter?_eq_some hmembers with ⟨hend, rfl⟩ | ⟨cs', hcomma, hscan⟩
  · simp only [hend]
    rfl
  · simp only [hcomma]
    rw [hscan]
    rfl

theorem ne_of_numeral_head {c d : Char} (hc : c = '-' ∨ c.isDigit = true) (hd : d ≠ '-')
    (hdigit : d.isDigit = false) : c ≠ d := by
  rintro rfl
  rcases hc with hc | hc
  · exact hd hc
  · exact absurd (hc.symm.trans hdigit) (by decide)

theorem isBlank_numeral_head {c : Char} (hc : c = '-' ∨ c.isDigit = true) :
    Raw.isBlank c = false := by
  have hspace : c ≠ ' ' := ne_of_numeral_head hc (by decide) (by decide)
  have hnewline : c ≠ '\n' := ne_of_numeral_head hc (by decide) (by decide)
  have htab : c ≠ '\t' := ne_of_numeral_head hc (by decide) (by decide)
  have hreturn : c ≠ '\r' := ne_of_numeral_head hc (by decide) (by decide)
  simp [Raw.isBlank, hspace, hnewline, htab, hreturn]

theorem scanValue?_numeral {t : Numeral} (h : Numeral.scan? cs = some (t, rest)) :
    scanValue? (fuel + 1) cs = some (.number t.toNumber?, rest) := by
  obtain ⟨c, cs', rfl, hc⟩ := Numeral.head_of_scan? h
  have hne {d : Char} (hd : d ≠ '-') (hdigit : d.isDigit = false) {l : List Char}
      (heq : c :: cs' = d :: l) : False :=
    ne_of_numeral_head hc hd hdigit (List.cons.inj heq).1
  rw [scanValue?, skipBlanks_cons (isBlank_numeral_head hc)]
  split
  · next heq => cases heq
  · next heq => exact (hne (by decide) (by decide) heq).elim
  · next heq => exact (hne (by decide) (by decide) heq).elim
  · next heq => exact (hne (by decide) (by decide) heq).elim
  · next heq => exact (hne (by decide) (by decide) heq).elim
  · next heq => exact (hne (by decide) (by decide) heq).elim
  · next heq => exact (hne (by decide) (by decide) heq).elim
  · next heq =>
    cases heq
    rw [h]
    rfl

/-- The text starts neither with a blank nor with the end of an array. -/
def Starts (cs : List Char) : Prop :=
  ∃ c rest, cs = c :: rest ∧ Raw.isBlank c = false ∧ c ≠ ']'

theorem Starts.append (h : Starts cs) (rest : List Char) : Starts (cs ++ rest) := by
  obtain ⟨c, cs', rfl, hc⟩ := h
  exact ⟨c, cs' ++ rest, rfl, hc⟩

theorem starts_prettyChars {j : Json} (hj : j.ReadsBack) (level : Nat) :
    Starts (prettyChars level j) := by
  cases j with
  | null => exact ⟨_, _, rfl, by decide, by decide⟩
  | bool b => cases b <;> exact ⟨_, _, rfl, by decide, by decide⟩
  | number n =>
    obtain ⟨t, ht, -⟩ := hj
    obtain ⟨c, cs, hcs, hc⟩ := Numeral.head_of_scan? ht
    refine ⟨c, cs, ?_, isBlank_numeral_head hc, ne_of_numeral_head hc (by decide) (by decide)⟩
    rw [prettyChars, hcs]
  | string s => exact ⟨_, _, rfl, by decide, by decide⟩
  | array items => cases items <;> exact ⟨_, _, rfl, by decide, by decide⟩
  | object members => cases members <;> exact ⟨_, _, rfl, by decide, by decide⟩

theorem length_prettyChars_pos {j : Json} (hj : j.ReadsBack) (level : Nat) :
    0 < (prettyChars level j).length := by
  obtain ⟨c, cs, hcs, -⟩ := starts_prettyChars hj level
  rw [hcs]
  exact Nat.succ_pos _

theorem ended_prettyItems (level : Nat) (items : List Json) (rest : List Char) :
    Ended (prettyItems level items ++ rest) := by
  cases items with
  | nil => exact ended_cons (by decide)
  | cons item items => exact ended_cons (by decide)

theorem ended_prettyMembers (level : Nat) (members : List (String × Json)) (rest : List Char) :
    Ended (prettyMembers level members ++ rest) := by
  cases members with
  | nil => exact ended_cons (by decide)
  | cons m members => exact ended_cons (by decide)

theorem scanValue?_array {items : List Raw} (hcs : Starts cs)
    (h : scanItems? fuel cs = some (items, rest)) :
    scanValue? (fuel + 1) ('[' :: newline level ++ cs) = some (.array items, rest) := by
  obtain ⟨c, cs', rfl, hblank, hc⟩ := hcs
  have hopen : skipBlanks ('[' :: newline level ++ c :: cs') = '[' :: newline level ++ c :: cs' :=
    skipBlanks_cons (by decide)
  rw [scanValue?, hopen]
  simp only [List.cons_append, skipBlanks_newline, skipBlanks_cons hblank]
  split
  · next heq => exact absurd (List.cons.inj heq).1 hc
  · rw [h]
    rfl

theorem scanValue?_object {members : List (Option String × Raw)} {key : String}
    (h : scanMembers? fuel (quote key ++ cs) = some (members, rest)) :
    scanValue? (fuel + 1) ('{' :: newline level ++ (quote key ++ cs))
      = some (.object members, rest) := by
  have hopen : skipBlanks ('{' :: newline level ++ (quote key ++ cs))
      = '{' :: newline level ++ (quote key ++ cs) := skipBlanks_cons (by decide)
  have hquote : skipBlanks (quote key ++ cs) = quote key ++ cs := skipBlanks_cons (by decide)
  rw [scanValue?, hopen]
  simp only [List.cons_append, skipBlanks_newline, hquote]
  split
  · next heq => exact absurd (List.cons.inj heq).1 (by decide)
  · rw [h]
    rfl

theorem scanValue?_quote (s : String) :
    scanValue? (fuel + 1) (quote s ++ rest) = some (.string (some s), rest) := by
  have hquote : quote s ++ rest = '"' :: (s.toList.flatMap escape ++ '"' :: rest) := by
    simp only [quote, List.cons_append, List.append_assoc, List.nil_append]
  rw [hquote, scanValue?, skipBlanks_cons (by decide)]
  simp only [scanString?_quote]
  rfl

theorem scanItems?_newline (fuel level : Nat) (cs : List Char) :
    scanItems? fuel (newline level ++ cs) = scanItems? fuel cs := by
  cases fuel with
  | zero => rfl
  | succ fuel => rw [scanItems?, scanItems?, scanValue?_congr fuel (skipBlanks_newline level cs)]

theorem scanMembers?_newline (fuel level : Nat) (cs : List Char) :
    scanMembers? fuel (newline level ++ cs) = scanMembers? fuel cs := by
  cases fuel with
  | zero => rfl
  | succ fuel => rw [scanMembers?, scanMembers?, skipBlanks_newline]

theorem length_newline (level : Nat) : (newline level).length = 2 * level + 1 := by
  rw [newline, List.length_cons, List.length_replicate]

mutual

theorem scanValue?_pretty : ∀ (j : Json), j.ReadsBack → ∀ (level fuel : Nat) (rest : List Char),
    (prettyChars level j).length ≤ fuel → Ended rest →
    scanValue? fuel (prettyChars level j ++ rest) = some (j.toRaw, rest)
  | j, _, level, 0, _, hfuel, _ => by
    have hpos := length_prettyChars_pos ‹j.ReadsBack› level
    omega
  | .null, _, level, fuel + 1, rest, _, _ => by
    rw [prettyChars, scanValue?]
    rfl
  | .bool b, _, level, fuel + 1, rest, _, _ => by
    cases b with
    | true =>
      rw [prettyChars, scanValue?]
      rfl
    | false =>
      rw [prettyChars, scanValue?]
      rfl
  | .number n, hn, level, fuel + 1, rest, hfuel, hrest => by
    obtain ⟨t, ht, hnumber⟩ := hn
    rw [prettyChars, scanValue?_numeral (Numeral.scan?_append hrest ht), hnumber]
    rfl
  | .string s, _, level, fuel + 1, rest, hfuel, _ => by
    rw [prettyChars, scanValue?_quote, toRaw]
  | .array [], _, level, fuel + 1, rest, hfuel, _ => by
    rw [prettyChars, scanValue?]
    rfl
  | .array (item :: items), ⟨hitem, hitems⟩, level, fuel + 1, rest, hfuel, _ => by
    rw [prettyChars] at hfuel ⊢
    simp only [List.length_cons, List.length_append, length_newline] at hfuel
    obtain ⟨fuel, rfl⟩ : ∃ less, fuel = less + 1 := ⟨fuel - 1, by omega⟩
    have hvalue := scanValue?_pretty item hitem (level + 1) fuel (prettyItems level items ++ rest)
      (by omega) (ended_prettyItems _ _ _)
    have hafter := scanAfter?_prettyItems items hitems level fuel rest (by omega)
    rw [List.append_assoc, List.append_assoc, toRaw, itemsToRaw]
    exact scanValue?_array ((starts_prettyChars hitem _).append _) (scanItems?_succ hvalue hafter)
  | .object [], _, level, fuel + 1, rest, hfuel, _ => by
    rw [prettyChars, scanValue?]
    rfl
  | .object ((key, value) :: members), ⟨hvalue, hmembers⟩, level, fuel + 1, rest, hfuel, _ => by
    rw [prettyChars] at hfuel ⊢
    simp only [List.length_cons, List.length_append, length_newline] at hfuel
    obtain ⟨fuel, rfl⟩ : ∃ less, fuel = less + 1 := ⟨fuel - 1, by omega⟩
    have hscan := scanValue?_pretty value hvalue (level + 1) fuel
      (prettyMembers level members ++ rest) (by omega) (ended_prettyMembers _ _ _)
    have hafter := scanAfter?_prettyMembers members hmembers level fuel rest (by omega)
    rw [toRaw, membersToRaw]
    simp only [List.append_assoc, List.cons_append]
    exact scanValue?_object (scanMembers?_succ hscan hafter)

theorem scanAfter?_prettyItems : ∀ (items : List Json), ItemsReadBack items →
    ∀ (level fuel : Nat) (rest : List Char), (prettyItems level items).length ≤ fuel →
    scanAfter? ']' (scanItems? fuel) (prettyItems level items ++ rest)
      = some (itemsToRaw items, rest)
  | [], _, level, fuel, rest, _ => by
    rw [prettyItems, List.append_assoc, itemsToRaw]
    exact scanAfter?_close level (by decide)
  | item :: items, ⟨hitem, hitems⟩, level, fuel, rest, hfuel => by
    rw [prettyItems] at hfuel ⊢
    simp only [List.length_cons, List.length_append, length_newline] at hfuel
    obtain ⟨fuel, rfl⟩ : ∃ less, fuel = less + 1 := ⟨fuel - 1, by omega⟩
    have hvalue := scanValue?_pretty item hitem (level + 1) fuel (prettyItems level items ++ rest)
      (by omega) (ended_prettyItems _ _ _)
    have hafter := scanAfter?_prettyItems items hitems level fuel rest (by omega)
    simp only [List.append_assoc, List.cons_append]
    rw [itemsToRaw, scanAfter?_comma _ (by decide), scanItems?_newline]
    exact scanItems?_succ hvalue hafter

theorem scanAfter?_prettyMembers : ∀ (members : List (String × Json)), MembersReadBack members →
    ∀ (level fuel : Nat) (rest : List Char), (prettyMembers level members).length ≤ fuel →
    scanAfter? '}' (scanMembers? fuel) (prettyMembers level members ++ rest)
      = some (membersToRaw members, rest)
  | [], _, level, fuel, rest, _ => by
    rw [prettyMembers, List.append_assoc, membersToRaw]
    exact scanAfter?_close level (by decide)
  | (key, value) :: members, ⟨hvalue, hmembers⟩, level, fuel, rest, hfuel => by
    rw [prettyMembers] at hfuel ⊢
    simp only [List.length_cons, List.length_append, length_newline] at hfuel
    obtain ⟨fuel, rfl⟩ : ∃ less, fuel = less + 1 := ⟨fuel - 1, by omega⟩
    have hscan := scanValue?_pretty value hvalue (level + 1) fuel
      (prettyMembers level members ++ rest) (by omega) (ended_prettyMembers _ _ _)
    have hafter := scanAfter?_prettyMembers members hmembers level fuel rest (by omega)
    simp only [List.append_assoc, List.cons_append]
    rw [membersToRaw, scanAfter?_comma _ (by decide), scanMembers?_newline]
    exact scanMembers?_succ hscan hafter

end

/-- The text of a value is read as its tree, to the end. -/
theorem parse?_pretty {j : Json} (hj : j.ReadsBack) : Raw.parse? j.pretty = some j.toRaw := by
  have hlength : j.pretty.length = (j.prettyChars 0).length := String.length_ofList
  have hscan := scanValue?_pretty j hj 0 (2 * j.pretty.length + 2) [] (by omega) nofun
  rw [List.append_nil] at hscan
  rw [Raw.parse?, pretty, String.toList_ofList, ← pretty, hscan]
  rfl

end Scanning

section Keeping

open Raw (keep?)

/-- The values of a list of trees are there if the value of every tree is. -/
theorem isSome_mapM_cons {α β : Type} {f : α → Option β} {a : α} {l : List α} :
    ((a :: l).mapM f).isSome = true ↔ (f a).isSome = true ∧ (l.mapM f).isSome = true := by
  rw [List.mapM_cons]
  cases f a with
  | none => simp
  | some b => cases l.mapM f <;> simp

theorem isSome_bind {α β : Type} {x : Option α} {f : α → Option β}
    (hf : ∀ a, (f a).isSome = true) : (x >>= f).isSome = x.isSome := by
  cases x with
  | none => rfl
  | some a => exact hf a

mutual

/-- A tree becomes a value again if and only if it does not nest too deep. -/
theorem isSome_keep?_toRaw : ∀ (j : Json) (depth : Nat),
    (keep? depth j.toRaw).isSome = true ↔ j.nesting ≤ depth
  | .null, depth | .bool _, depth | .number _, depth | .string _, depth => by
    simp [toRaw, keep?, nesting]
  | .array items, 0 => by simp [toRaw, keep?, nesting]
  | .array items, depth + 1 => by
    rw [toRaw, keep?, isSome_bind fun _ => rfl, nesting, Nat.succ_le_succ_iff]
    exact isSome_keep?_itemsToRaw items depth
  | .object members, 0 => by simp [toRaw, keep?, nesting]
  | .object members, depth + 1 => by
    rw [toRaw, keep?, isSome_bind fun _ => rfl, nesting, Nat.succ_le_succ_iff]
    refine isSome_keep?_membersToRaw members depth fun key value => ?_
    dsimp only
    cases keep? depth value <;> rfl

theorem isSome_keep?_itemsToRaw : ∀ (items : List Json) (depth : Nat),
    ((itemsToRaw items).mapM (keep? depth)).isSome = true ↔ itemsNesting items ≤ depth
  | [], depth => by simp [itemsToRaw, itemsNesting]
  | item :: items, depth => by
    rw [itemsToRaw, isSome_mapM_cons, itemsNesting, Nat.max_le,
      isSome_keep?_toRaw item depth, isSome_keep?_itemsToRaw items depth]

theorem isSome_keep?_membersToRaw : ∀ (members : List (String × Json)) (depth : Nat)
    {keepMember : Option String × Raw → Option (String × Json)},
    (∀ key value, keepMember (some key, value) = (keep? depth value).map (key, ·)) →
    (((membersToRaw members).mapM keepMember).isSome = true ↔ membersNesting members ≤ depth)
  | [], depth, _, _ => by simp [membersToRaw, membersNesting]
  | (key, value) :: members, depth, keepMember, hkeep => by
    rw [membersToRaw, isSome_mapM_cons, hkeep, Option.isSome_map, membersNesting, Nat.max_le,
      isSome_keep?_toRaw value depth, isSome_keep?_membersToRaw members depth hkeep]

end

end Keeping

end TablePipeline.Json
