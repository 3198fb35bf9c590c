import Mathlib
import TablePipeline.Workspace.Compile
/-!
# The places of blocks

A block of a workspace is in a chain, or plugged into a field of another block, alone or in a list.
A `Place` says where: `Workspace.called? w p` is the block there and what it is called. Only fields
count that the type of their block has (`Kind.fields`), since no others are looked at.

Where no block has a name of its own, a block is called by its place, but for the positions in lists
(`Workspace.Nameless.eq_generatedName`). So blocks share a name if and only if their places agree up
to these (`Workspace.Nameless.name_eq_iff`).
-/

namespace TablePipeline

/-- The fields that a type of block has. -/
def Kind.fields : Kind → List String
  | .namedDataset | .notify => ["name"]
  | .join => ["leftName", "leftColumn", "rightName", "rightColumn"]
  | .select | .filter | .group | .summarize | .aggregate _ => ["Column"]
  | .mutate => ["newCol", "Column"]
  | .histogram => ["Column", "bins"]
  | .bar => ["X_axis", "Y_axis"]
  | .scatter => ["X_axis", "Y_axis", "color"]
  | .number => ["NUM"]
  | .text | .column => ["TEXT"]
  | .boolean => ["BOOL"]
  | .compare | .arithmetic => ["OP", "A", "B"]
  | .dataset _ | .missing | .unknown => []

/-- Where a block is plugged in: a field, and a position if the field lists blocks. -/
structure Socket where
  field : String
  position : Option Nat
deriving DecidableEq, Repr

/-- The only block of a content, or the one at a position of a list. -/
def Field.block? {β : Type} : Field β → Option Nat → Option β
  | .block b, none => some b
  | .blocks bs, some i => bs[i]?
  | _, _ => none

namespace Block

/-- The block that is plugged into a socket, if the type of the owner has the field. -/
def plugged? (b : Block) (s : Socket) : Option Block :=
  if s.field ∈ (Kind.ofName b.kind).fields then
    (b.fields.lookup s.field).bind (·.block? s.position)
  else none

/-- The block that some sockets lead to, and what it is called if the owner has the given name: its
own name, or else the name of its owner and the field. -/
def called? (b : Block) (name : String) : List Socket → Option (Block × String)
  | [] => some (b, name)
  | s :: rest => do
    let inner ← b.plugged? s
    inner.called? (inner.id.getD (name ++ "/" ++ s.field)) rest

end Block

/-- A place for a block in a workspace. -/
structure Place where
  stack : Nat
  depth : Nat
  /-- The way down from a block of the stack. -/
  sockets : List Socket
deriving DecidableEq, Repr

/-- What a block of a stack is called if it has no name. -/
def Place.rootName (stack depth : Nat) : String := "#" ++ toString stack ++ "." ++ toString depth

/-- The block at a depth of a stack, or below its sockets, and what it is called. -/
def Block.calledIn? (head : Block) (stack depth : Nat) (sockets : List Socket) :
    Option (Block × String) := do
  let b ← head.chain[depth]?
  b.called? (b.id.getD (Place.rootName stack depth)) sockets

/-- The block at a place, and what it is called: its own name, or else the one that its place
gives it. -/
def Workspace.called? (w : Workspace) (p : Place) : Option (Block × String) := do
  let head ← w.heads[p.stack]?
  head.calledIn? p.stack p.depth p.sockets

/-! ### Blocks and what is plugged into them -/

namespace Block

variable {b c inner : Block} {s : Socket} {name n : String} {sockets : List Socket}

theorem plugged?_eq_some : b.plugged? s = some inner ↔ s.field ∈ (Kind.ofName b.kind).fields ∧
    ∃ f, b.fields.lookup s.field = some f ∧ f.block? s.position = some inner := by
  unfold plugged?
  split
  · next h => simp [h, Option.bind_eq_some_iff]
  · next h => simp [h]

/-- The name that the compiler has for a block which is plugged in. -/
theorem nameIn_eq (b : Block) (parent field : String) :
    b.nameIn parent field = b.id.getD (parent ++ "/" ++ field) := rfl

/-- The name that the compiler has for a block of a stack. -/
theorem nameAt_eq (b : Block) (stack depth : Nat) :
    b.nameAt stack depth = b.id.getD (Place.rootName stack depth) := rfl

theorem called?_cons : b.called? name (s :: sockets) = some (c, n) ↔
    ∃ inner, b.plugged? s = some inner ∧
      inner.called? (inner.nameIn name s.field) sockets = some (c, n) := by
  rw [called?]
  simp only [nameIn_eq]
  exact Option.bind_eq_some_iff

theorem called?_append (more : List Socket) :
    b.called? name (sockets ++ more)
      = (b.called? name sockets).bind fun (c, n) => c.called? n more := by
  induction sockets generalizing b name with
  | nil => rfl
  | cons s rest ih =>
    rw [List.cons_append, called?, called?]
    cases b.plugged? s with
    | none => rfl
    | some inner => exact ih

/-- Which block some sockets lead to does not depend on names. -/
theorem block_eq_of_called? {c' : Block} {name' n' : String}
    (h : b.called? name sockets = some (c, n)) (h' : b.called? name' sockets = some (c', n')) :
    c = c' := by
  induction sockets generalizing b name name' with
  | nil =>
    cases h
    cases h'
    rfl
  | cons s rest ih =>
    obtain ⟨inner, hs, hrest⟩ := called?_cons.mp h
    obtain ⟨inner', hs', hrest'⟩ := called?_cons.mp h'
    obtain rfl : inner' = inner := Option.some.inj (hs'.symm.trans hs)
    exact ih hrest hrest'

theorem calledIn?_eq_some {head : Block} {stack depth : Nat} :
    head.calledIn? stack depth sockets = some (c, n) ↔
      ∃ b, head.chain[depth]? = some b ∧ b.called? (b.nameAt stack depth) sockets = some (c, n) := by
  simp only [nameAt_eq]
  exact Option.bind_eq_some_iff

theorem sizeOf_lt_of_lookup {fields : List (String × Field Block)} {field : String}
    {f : Field Block} (h : fields.lookup field = some f) : sizeOf f < sizeOf fields := by
  induction fields with
  | nil => cases h
  | cons e rest ih =>
    obtain ⟨key, g⟩ := e
    rw [List.cons.sizeOf_spec, Prod.mk.sizeOf_spec]
    rw [lookup_cons_eq] at h
    split at h
    · cases h
      show sizeOf g < 1 + (1 + sizeOf key + sizeOf g) + sizeOf rest
      omega
    · have hrest := ih h
      omega

theorem sizeOf_lt_of_block? {f : Field Block} {position : Option Nat}
    (h : f.block? position = some b) : sizeOf b < sizeOf f := by
  unfold Field.block? at h
  split at h
  · cases h
    rw [Field.block.sizeOf_spec]
    omega
  · have hmem := List.sizeOf_lt_of_mem (List.mem_of_getElem? h)
    rw [Field.blocks.sizeOf_spec]
    omega
  · cases h

theorem sizeOf_lt_of_plugged? (h : b.plugged? s = some inner) : sizeOf inner < sizeOf b := by
  obtain ⟨-, f, hf, hinner⟩ := plugged?_eq_some.mp h
  obtain ⟨id, kind, fields, next⟩ := b
  have hfield : sizeOf f < sizeOf fields := sizeOf_lt_of_lookup hf
  have hblock := sizeOf_lt_of_block? hinner
  rw [Block.mk.sizeOf_spec]
  omega

/-- What passes from the blocks plugged into a block to the block itself holds of all blocks. -/
theorem induction_plugged {P : Block → Prop}
    (h : ∀ b : Block, (∀ s inner, b.plugged? s = some inner → P inner) → P b) (b : Block) : P b :=
  h b fun s inner hs =>
    have := sizeOf_lt_of_plugged? hs
    induction_plugged h inner
termination_by sizeOf b

end Block

theorem Workspace.called?_eq_some {w : Workspace} {p : Place} {b : Block} {n : String} :
    w.called? p = some (b, n) ↔ ∃ head root, w.heads[p.stack]? = some head ∧
      head.chain[p.depth]? = some root ∧
      root.called? (root.nameAt p.stack p.depth) p.sockets = some (b, n) := by
  simp only [called?, Block.calledIn?, Block.nameAt_eq, Option.bind_eq_bind,
    Option.bind_eq_some_iff]
  exact ⟨fun ⟨head, hhead, root, h⟩ => ⟨head, root, hhead, h⟩,
    fun ⟨head, root, hhead, h⟩ => ⟨head, hhead, root, h⟩⟩

theorem Workspace.called?_of_head {w : Workspace} {stack : Nat} {head : Block}
    (h : w.heads[stack]? = some head) (depth : Nat) (sockets : List Socket) :
    w.called? ⟨stack, depth, sockets⟩ = head.calledIn? stack depth sockets := by
  rw [called?, h]
  rfl

/-! ### Names by place -/

/-- Texts that do not have a separator in them are found again between the separators. -/
theorem eq_of_intercalate {c : Char} {separator : String} (hc : separator.toList = [c])
    {l m : List String} (hl : ∀ s ∈ l, c ∉ s.toList) (hm : ∀ s ∈ m, c ∉ s.toList) (hne : l ≠ [])
    (hne' : m ≠ []) (h : separator.intercalate l = separator.intercalate m) : l = m := by
  have hchars : [c].intercalate (l.map String.toList) = [c].intercalate (m.map String.toList) := by
    rw [← hc, ← String.toList_intercalate, h, String.toList_intercalate]
  have hsplit := congrArg (List.splitOn c) hchars
  rw [List.splitOn_intercalate c (by simpa using hl) (by simpa using hne),
    List.splitOn_intercalate c (by simpa using hm) (by simpa using hne')] at hsplit
  exact List.map_injective_iff.mpr (fun _ _ => String.toList_injective) hsplit

theorem not_mem_toDigits {c : Char} (hc : c.isDigit = false) (n : Nat) : c ∉ Nat.toDigits 10 n := by
  intro hmem
  rw [Nat.isDigit_of_mem_toDigits (by decide) (by decide) hmem] at hc
  cases hc

theorem Kind.slash_not_mem_fields (kind : Kind) : ∀ field ∈ kind.fields, '/' ∉ field.toList := by
  cases kind with
  | dataset name => exact nofun
  | aggregate function =>
    show ∀ field ∈ ["Column"], '/' ∉ field.toList
    decide
  | _ => decide

namespace Place

/-- What a block at a place is called if neither it nor an owner of it has a name. -/
def generatedName (p : Place) : String :=
  "/".intercalate (rootName p.stack p.depth :: p.sockets.map (·.field))

/-- The places differ in positions in lists at most. -/
def SameFields (p q : Place) : Prop :=
  p.stack = q.stack ∧ p.depth = q.depth ∧ p.sockets.map (·.field) = q.sockets.map (·.field)

theorem slash_not_mem_rootName (stack depth : Nat) : '/' ∉ (rootName stack depth).toList := by
  have hdigits := not_mem_toDigits (c := '/') (by decide)
  simp [rootName, hdigits]

theorem eq_of_rootName {stack stack' depth depth' : Nat}
    (h : rootName stack depth = rootName stack' depth') : stack = stack' ∧ depth = depth' := by
  have hparts (stack depth : Nat) :
      ∀ s ∈ ["#" ++ toString stack, toString depth], '.' ∉ s.toList := by
    have hdigits := not_mem_toDigits (c := '.') (by decide)
    simp [hdigits]
  have hroot (stack depth : Nat) :
      rootName stack depth = ".".intercalate ["#" ++ toString stack, toString depth] := by
    rw [String.intercalate_cons_cons, String.intercalate_singleton, rootName]
  rw [hroot, hroot] at h
  obtain ⟨hstack, hdepth⟩ := List.cons.inj
    (eq_of_intercalate (by decide) (hparts _ _) (hparts _ _) nofun nofun h)
  exact ⟨Nat.repr_inj.mp ((String.append_right_inj _).mp hstack),
    Nat.repr_inj.mp (List.head_eq_of_cons_eq hdepth)⟩

/-- Places whose fields are no paths are named apart, but for the positions in lists. -/
theorem generatedName_eq_iff {p q : Place} (hp : ∀ s ∈ p.sockets, '/' ∉ s.field.toList)
    (hq : ∀ s ∈ q.sockets, '/' ∉ s.field.toList) :
    p.generatedName = q.generatedName ↔ p.SameFields q := by
  have hparts (p : Place) (hp : ∀ s ∈ p.sockets, '/' ∉ s.field.toList) :
      ∀ s ∈ rootName p.stack p.depth :: p.sockets.map (·.field), '/' ∉ s.toList :=
    List.forall_mem_cons.mpr ⟨slash_not_mem_rootName _ _, List.forall_mem_map.mpr hp⟩
  constructor
  · intro h
    obtain ⟨hroot, hfields⟩ := List.cons.inj
      (eq_of_intercalate (by decide) (hparts p hp) (hparts q hq) nofun nofun h)
    obtain ⟨hstack, hdepth⟩ := eq_of_rootName hroot
    exact ⟨hstack, hdepth, hfields⟩
  · rintro ⟨hstack, hdepth, hfields⟩
    rw [generatedName, generatedName, hstack, hdepth, hfields]

end Place

/-! ### Blocks without names -/

/-- A content that lists no two blocks has one position for a block. -/
theorem Field.position_eq_of_block? {β : Type} {f : Field β} {i j : Option Nat} {b c : β}
    (hone : ∀ bs, f = .blocks bs → bs.length ≤ 1) (hi : f.block? i = some b)
    (hj : f.block? j = some c) : i = j := by
  cases f with
  | block inner =>
    cases i with
    | none => cases j with
      | none => rfl
      | some j => cases hj
    | some i => cases hi
  | blocks bs =>
    have hlength := hone bs rfl
    cases i with
    | none => cases hi
    | some i => cases j with
      | none => cases hj
      | some j =>
        obtain ⟨hi, -⟩ := List.getElem?_eq_some_iff.mp hi
        obtain ⟨hj, -⟩ := List.getElem?_eq_some_iff.mp hj
        exact congrArg some (by omega)
  | number n | text s | other j => cases hi

namespace Block

variable {b c inner : Block} {s : Socket} {name n : String} {sockets : List Socket}

theorem slash_not_mem_of_called? (h : b.called? name sockets = some (c, n)) :
    ∀ s ∈ sockets, '/' ∉ s.field.toList := by
  induction sockets generalizing b name with
  | nil => exact nofun
  | cons s rest ih =>
    obtain ⟨inner, hs, hrest⟩ := called?_cons.mp h
    have hfield := (Kind.ofName b.kind).slash_not_mem_fields _ (plugged?_eq_some.mp hs).1
    exact List.forall_mem_cons.mpr ⟨hfield, ih hrest⟩

/-- Neither the block has a name of its own nor any block below it that is looked at. -/
inductive Nameless : Block → Prop
  | intro {b : Block} (id_eq : b.id = none)
      (plugged : ∀ s inner, b.plugged? s = some inner → inner.Nameless) : Nameless b

theorem Nameless.id_eq (h : b.Nameless) : b.id = none := by
  cases h
  assumption

theorem Nameless.plugged (h : b.Nameless) (hs : b.plugged? s = some inner) : inner.Nameless := by
  cases h with
  | intro _ hplugged => exact hplugged s inner hs

theorem Nameless.of_fields (hid : b.id = none) (h : ∀ field ∈ (Kind.ofName b.kind).fields,
    ∀ f position inner, b.fields.lookup field = some f → f.block? position = some inner →
      inner.Nameless) : b.Nameless := by
  refine .intro hid fun s inner hs => ?_
  obtain ⟨hfield, f, hf, hinner⟩ := plugged?_eq_some.mp hs
  exact h s.field hfield f s.position inner hf hinner

/-- The names below a block without a name go on with the fields on the way. -/
theorem Nameless.name_of_called? (hb : b.Nameless) (h : b.called? name sockets = some (c, n)) :
    n = "/".intercalate (name :: sockets.map (·.field)) := by
  induction sockets generalizing b name with
  | nil =>
    cases h
    exact String.intercalate_singleton.symm
  | cons s rest ih =>
    obtain ⟨inner, hs, hrest⟩ := called?_cons.mp h
    have hinner := hb.plugged hs
    have hname : inner.nameIn name s.field = name ++ "/" ++ s.field := by
      rw [nameIn_eq, hinner.id_eq, Option.getD_none]
    rw [ih hinner hrest, hname, List.map_cons]
    cases rest.map (·.field) with
    | nil => simp
    | cons field fields => simp [String.intercalate_cons_cons, String.append_assoc]

/-- Two ways down through the same fields are the same if no field on them lists two blocks. -/
theorem eq_of_called? {ss ts : List Socket} {r r' : Block × String}
    (hone : ∀ sockets c n field bs, b.called? name sockets = some (c, n) →
      field ∈ (Kind.ofName c.kind).fields → c.fields.lookup field = some (.blocks bs) →
      bs.length ≤ 1)
    (hs : b.called? name ss = some r) (ht : b.called? name ts = some r')
    (hfields : ss.map (·.field) = ts.map (·.field)) : ss = ts := by
  induction ss generalizing b name ts with
  | nil => exact (List.map_eq_nil_iff.mp hfields.symm).symm
  | cons s ss ih =>
    obtain ⟨t, ts, rfl, hfield, hrest⟩ := List.map_eq_cons_iff.mp hfields.symm
    obtain ⟨inner, hinner, hs⟩ := called?_cons.mp hs
    obtain ⟨inner', hinner', ht⟩ := called?_cons.mp ht
    obtain ⟨hread, f, hf, hblock⟩ := plugged?_eq_some.mp hinner
    obtain ⟨-, f', hf', hblock'⟩ := plugged?_eq_some.mp hinner'
    obtain rfl : f' = f := by rw [hfield, hf] at hf'; exact (Option.some.inj hf').symm
    have hposition : s.position = t.position := by
      refine Field.position_eq_of_block? (fun bs hbs => ?_) hblock hblock'
      exact hone [] b name s.field bs rfl hread (hbs ▸ hf)
    obtain rfl : t = s := by
      obtain ⟨field, position⟩ := s
      obtain ⟨field', position'⟩ := t
      cases hfield
      cases hposition
      rfl
    obtain rfl : inner' = inner := Option.some.inj (hinner'.symm.trans hinner)
    -- A place below the plugged block is one below its owner, by the socket in between.
    have hone' : ∀ sockets c n field bs,
        inner'.called? (inner'.nameIn name t.field) sockets = some (c, n) →
        field ∈ (Kind.ofName c.kind).fields → c.fields.lookup field = some (.blocks bs) →
        bs.length ≤ 1 := fun sockets c n field bs hc =>
      hone (t :: sockets) c n field bs (called?_cons.mpr ⟨inner', hinner, hc⟩)
    rw [ih hone' hs ht hrest.symm]

end Block

/-! ### Workspaces without names -/

namespace Place

/-- A place below this one. -/
def below (p : Place) (s : Socket) : Place := { p with sockets := p.sockets ++ [s] }

end Place

namespace Workspace

variable {w : Workspace} {p q : Place} {b c inner : Block} {s : Socket} {m n : String}

theorem called?_below (h : w.called? p = some (b, n)) (hs : b.plugged? s = some inner) :
    w.called? (p.below s) = some (inner, inner.nameIn n s.field) := by
  obtain ⟨head, root, hhead, hroot, h⟩ := called?_eq_some.mp h
  refine called?_eq_some.mpr ⟨head, root, hhead, hroot, ?_⟩
  show root.called? (root.nameAt p.stack p.depth) (p.sockets ++ [s]) = _
  rw [Block.called?_append, h]
  exact Block.called?_cons.mpr ⟨inner, hs, rfl⟩

/-- No block that is looked at has a name of its own. -/
def Nameless (w : Workspace) : Prop := ∀ head ∈ w.heads, ∀ b ∈ head.chain, b.Nameless

/-- No field that is looked at lists two blocks. -/
def ListsNoTwo (w : Workspace) : Prop :=
  ∀ p b n field bs, w.called? p = some (b, n) → field ∈ (Kind.ofName b.kind).fields →
    b.fields.lookup field = some (.blocks bs) → bs.length ≤ 1

theorem slash_not_mem_of_called? (h : w.called? p = some (b, n)) :
    ∀ s ∈ p.sockets, '/' ∉ s.field.toList := by
  obtain ⟨head, root, -, -, h⟩ := called?_eq_some.mp h
  exact Block.slash_not_mem_of_called? h

namespace Nameless

theorem eq_generatedName (hw : w.Nameless) (h : w.called? p = some (b, n)) :
    n = p.generatedName := by
  obtain ⟨head, root, hhead, hroot, hcalled⟩ := called?_eq_some.mp h
  have hnameless := hw head (List.mem_of_getElem? hhead) root (List.mem_of_getElem? hroot)
  have hname : root.nameAt p.stack p.depth = Place.rootName p.stack p.depth := by
    rw [Block.nameAt_eq, hnameless.id_eq, Option.getD_none]
  rw [hnameless.name_of_called? hcalled, hname]
  rfl

/-- Two blocks have the same name if and only if their places differ in positions in lists at
most. -/
theorem name_eq_iff (hw : w.Nameless) (hp : w.called? p = some (b, m))
    (hq : w.called? q = some (c, n)) : m = n ↔ p.SameFields q := by
  rw [hw.eq_generatedName hp, hw.eq_generatedName hq]
  exact Place.generatedName_eq_iff (slash_not_mem_of_called? hp) (slash_not_mem_of_called? hq)

/-- Every block has a name to itself if and only if no field lists two blocks. -/
theorem names_apart_iff (hw : w.Nameless) :
    (∀ p q b c n, w.called? p = some (b, n) → w.called? q = some (c, n) → p = q) ↔
      w.ListsNoTwo := by
  constructor
  · intro hapart p b n field bs hp hfield hbs
    by_contra htwo
    have hplugged (i : Nat) (hi : i < bs.length) : b.plugged? ⟨field, some i⟩ = some bs[i] :=
      Block.plugged?_eq_some.mpr ⟨hfield, .blocks bs, hbs, List.getElem?_eq_getElem hi⟩
    have hfirst := called?_below hp (hplugged 0 (by omega))
    have hsecond := called?_below hp (hplugged 1 (by omega))
    have hname : (p.below ⟨field, some 0⟩).SameFields (p.below ⟨field, some 1⟩) :=
      ⟨rfl, rfl, by simp [Place.below]⟩
    rw [(hw.name_eq_iff hfirst hsecond).mpr hname] at hfirst
    have hplace := congrArg Place.sockets (hapart _ _ _ _ _ hfirst hsecond)
    simp [Place.below] at hplace
  · intro hone p q b c n hp hq
    obtain ⟨hstack, hdepth, hfields⟩ := (hw.name_eq_iff hp hq).mp rfl
    obtain ⟨head, root, hhead, hroot, hpcalled⟩ := called?_eq_some.mp hp
    obtain ⟨head', root', hhead', hroot', hqcalled⟩ := called?_eq_some.mp hq
    obtain ⟨stack, depth, ss⟩ := p
    obtain ⟨stack', depth', ts⟩ := q
    cases hstack
    cases hdepth
    obtain rfl : head' = head := Option.some.inj (hhead'.symm.trans hhead)
    obtain rfl : root' = root := Option.some.inj (hroot'.symm.trans hroot)
    congr 1
    refine Block.eq_of_called? (fun sockets c n field bs hc => ?_) hpcalled hqcalled hfields
    exact hone ⟨stack, depth, sockets⟩ c n field bs
      (called?_eq_some.mpr ⟨head', root', hhead, hroot, hc⟩)

end Nameless

end Workspace

end TablePipeline
