import Mathlib.Data.List.Forall2
/-!
# How computations that may fail end

Everything a program does is a chain of `Except` computations. `bind_eq_ok` takes a chain that
succeeds apart, the lemmas on `mapM` and `filterM` do the same for lists. `Yields P` says that every
result of a computation satisfies `P`, and `Raises P` that every error does. `Returns a P` and, of
an `Option`, `Gives a P` say when there is a result and which. `Keeps R` compares two computations
as far as the first one succeeds, `Matches lenient R E` also where it fails. None of this knows what
the results and the errors are.
-/

namespace TablePipeline.Outcome

variable {ε α β γ : Type}

theorem bind_eq_ok {x : Except ε α} {f : α → Except ε β} {b : β} :
    x >>= f = .ok b ↔ ∃ a, x = .ok a ∧ f a = .ok b := by
  cases x with
  | error e => simp [bind, Except.bind]
  | ok a => simp [bind, Except.bind]

theorem pure_eq_ok {a b : α} : (pure a : Except ε α) = .ok b ↔ a = b := by
  simp [pure, Except.pure]

theorem bind_eq_error {x : Except ε α} {f : α → Except ε β} {e : ε} :
    x >>= f = .error e ↔ x = .error e ∨ ∃ a, x = .ok a ∧ f a = .error e := by
  cases x with
  | error e' => simp [bind, Except.bind]
  | ok a => simp [bind, Except.bind]

theorem ok_bind (a : α) (f : α → Except ε β) : (.ok a : Except ε α) >>= f = f a := rfl

/-- Every result of a list of steps is the result of one of them. -/
theorem mem_of_mapM_ok {f : α → Except ε β} {l : List α} {bs : List β} (h : l.mapM f = .ok bs)
    {b : β} (hb : b ∈ bs) : ∃ a ∈ l, f a = .ok b := by
  induction l generalizing bs with
  | nil =>
    rw [List.mapM_nil, pure_eq_ok] at h
    subst h
    cases hb
  | cons a rest ih =>
    rw [List.mapM_cons, bind_eq_ok] at h
    obtain ⟨b', hb', h⟩ := h
    obtain ⟨bs', hbs', h⟩ := bind_eq_ok.mp h
    obtain rfl := pure_eq_ok.mp h
    rcases List.mem_cons.mp hb with rfl | hb
    · exact ⟨a, List.mem_cons_self, hb'⟩
    · obtain ⟨a', ha', hf⟩ := ih hbs' hb
      exact ⟨a', List.mem_cons_of_mem _ ha', hf⟩

/-- A view that every step keeps is kept by a list of steps. -/
theorem map_eq_of_mapM_ok {f : α → Except ε β} {p : α → γ} {q : β → γ}
    (hf : ∀ a b, f a = .ok b → q b = p a) {l : List α} {bs : List β} (h : l.mapM f = .ok bs) :
    bs.map q = l.map p := by
  induction l generalizing bs with
  | nil =>
    obtain rfl := pure_eq_ok.mp (List.mapM_nil.symm.trans h)
    rfl
  | cons a rest ih =>
    rw [List.mapM_cons, bind_eq_ok] at h
    obtain ⟨b, hb, h⟩ := h
    obtain ⟨bs', hbs', h⟩ := bind_eq_ok.mp h
    obtain rfl := pure_eq_ok.mp h
    rw [List.map_cons, List.map_cons, hf a b hb, ih hbs']

private theorem filterAuxM_eq {p : α → Except ε Bool} (l acc : List α) :
    l.filterAuxM p acc = (do return (← l.filterAuxM p []) ++ acc) := by
  induction l generalizing acc with
  | nil => rfl
  | cons a rest ih =>
    unfold List.filterAuxM
    cases p a with
    | error e => rfl
    | ok keep =>
      simp only [ok_bind]
      rw [ih (bif keep then a :: acc else acc), ih (bif keep then [a] else [])]
      cases rest.filterAuxM p [] with
      | error e => rfl
      | ok kept => cases keep <;> simp [bind, Except.bind, pure, Except.pure]

/-- The first item is judged first. -/
theorem filterM_cons (p : α → Except ε Bool) (a : α) (l : List α) :
    (a :: l).filterM p = (do
      let keep ← p a
      let kept ← l.filterM p
      return if keep then a :: kept else kept) := by
  unfold List.filterM
  rw [List.filterAuxM]
  cases p a with
  | error e => rfl
  | ok keep =>
    simp only [ok_bind]
    rw [filterAuxM_eq l (bif keep then [a] else [])]
    cases l.filterAuxM p [] with
    | error e => rfl
    | ok kept => cases keep <;> simp [bind, Except.bind, pure, Except.pure]

theorem mem_of_filterM_ok {p : α → Except ε Bool} {l kept : List α} (h : l.filterM p = .ok kept)
    {a : α} (ha : a ∈ kept) : a ∈ l := by
  induction l generalizing kept with
  | nil =>
    obtain rfl := pure_eq_ok.mp h
    cases ha
  | cons b rest ih =>
    rw [filterM_cons] at h
    obtain ⟨keep, -, h⟩ := bind_eq_ok.mp h
    obtain ⟨others, hothers, h⟩ := bind_eq_ok.mp h
    obtain rfl := pure_eq_ok.mp h
    cases keep with
    | false => exact List.mem_cons_of_mem _ (ih hothers ha)
    | true =>
      rcases List.mem_cons.mp ha with rfl | ha
      · exact List.mem_cons_self
      · exact List.mem_cons_of_mem _ (ih hothers ha)

/-- Every item of a list that is filtered has been judged. -/
theorem exists_of_filterM_ok {p : α → Except ε Bool} {l kept : List α}
    (h : l.filterM p = .ok kept) {a : α} (ha : a ∈ l) : ∃ keep, p a = .ok keep := by
  induction l generalizing kept with
  | nil => cases ha
  | cons b rest ih =>
    rw [filterM_cons] at h
    obtain ⟨keep, hkeep, h⟩ := bind_eq_ok.mp h
    obtain ⟨others, hothers, -⟩ := bind_eq_ok.mp h
    rcases List.mem_cons.mp ha with rfl | ha
    · exact ⟨keep, hkeep⟩
    · exact ih hothers ha

/-- A filter whose judgements cannot fail is one of the library. -/
theorem filterM_eq_ok_filter {p : α → Except ε Bool} {q : α → Bool} {l : List α}
    (h : ∀ a ∈ l, p a = .ok (q a)) : l.filterM p = .ok (l.filter q) := by
  induction l with
  | nil => rfl
  | cons a rest ih =>
    obtain ⟨ha, hrest⟩ := List.forall_mem_cons.mp h
    rw [filterM_cons, ha, ih hrest, List.filter_cons]
    rfl

/-- A fold succeeds whose steps do as long as an invariant holds, which they keep. -/
theorem exists_foldlM_eq_ok {P : β → Prop} {f : β → α → Except ε β} {l : List α} {b : β}
    (h : ∀ b, P b → ∀ a ∈ l, ∃ b', f b a = .ok b' ∧ P b') (hb : P b) :
    ∃ b', l.foldlM f b = .ok b' ∧ P b' := by
  induction l generalizing b with
  | nil => exact ⟨b, rfl, hb⟩
  | cons a rest ih =>
    obtain ⟨b', hb', hP⟩ := h b hb a List.mem_cons_self
    rw [List.foldlM_cons, hb', ok_bind]
    exact ih (fun c hc a' ha' => h c hc a' (List.mem_cons_of_mem _ ha')) hP

/-- If the computation succeeds, then with a result that satisfies `P`. -/
def Yields (P : α → Prop) (x : Except ε α) : Prop := ∀ a, x = .ok a → P a

namespace Yields

variable {P : α → Prop} {Q : β → Prop}

theorem ok {a : α} (h : P a) : Yields P (.ok a : Except ε α) := by
  intro a' ha
  cases ha
  exact h

theorem error (e : ε) : Yields P (.error e : Except ε α) := fun _ h => nomatch h

/-- The second step may rely on what the first one yields. -/
theorem bind {x : Except ε α} {f : α → Except ε β} (hx : Yields P x)
    (hf : ∀ a, P a → Yields Q (f a)) : Yields Q (x >>= f) := by
  intro b hb
  obtain ⟨a, ha, hb⟩ := bind_eq_ok.mp hb
  exact hf a (hx a ha) b hb

/-- The second step does not rely on what the first one yields. -/
theorem seq {x : Except ε α} {f : α → Except ε β} (hf : ∀ a, Yields Q (f a)) :
    Yields Q (x >>= f) := by
  intro b hb
  obtain ⟨a, -, hb⟩ := bind_eq_ok.mp hb
  exact hf a b hb

theorem mapM {f : α → Except ε β} {l : List α} (h : ∀ a ∈ l, Yields Q (f a)) :
    Yields (fun bs => ∀ b ∈ bs, Q b) (l.mapM f) := by
  intro bs hbs b hb
  obtain ⟨a, ha, hf⟩ := mem_of_mapM_ok hbs hb
  exact h a ha b hf

end Yields

/-- If the first computation succeeds, so does the second, with a result related to the first. -/
def Keeps (R : α → β → Prop) (x : Except ε α) (y : Except ε β) : Prop :=
  ∀ a, x = .ok a → ∃ b, y = .ok b ∧ R a b

/-- Both computations succeed, with related results, or both fail, with related errors. If it is
lenient, the second one may end in any way where the first one fails. -/
inductive Matches (lenient : Prop) (R : α → β → Prop) (E : ε → ε → Prop) :
    Except ε α → Except ε β → Prop
  | ok {a : α} {b : β} (related : R a b) : Matches lenient R E (.ok a) (.ok b)
  | error {e e' : ε} (related : E e e') : Matches lenient R E (.error e) (.error e')
  | lost (h : lenient) (e : ε) (y : Except ε β) : Matches lenient R E (.error e) y

namespace Matches

variable {δ : Type} {lenient : Prop} {R : α → β → Prop} {S : γ → δ → Prop} {E F : ε → ε → Prop}

theorem keeps {x : Except ε α} {y : Except ε β} (h : Matches lenient R E x y) : Keeps R x y := by
  intro a ha
  subst ha
  cases h with
  | ok h => exact ⟨_, rfl, h⟩

theorem exists_error {x : Except ε α} {y : Except ε β} {e : ε} (h : Matches False R E x y)
    (hx : x = .error e) : ∃ e', y = .error e' ∧ E e e' := by
  subst hx
  cases h with
  | error h => exact ⟨_, rfl, h⟩
  | lost h => cases h

theorem mono {x : Except ε α} {y : Except ε β} (h : Matches lenient R E x y)
    (hEF : ∀ e e', E e e' → F e e') : Matches lenient R F x y := by
  cases h with
  | ok h => exact .ok h
  | error h => exact .error (hEF _ _ h)
  | lost h => exact .lost h _ _

/-- The second steps may rely on how the results of the first ones are related. -/
theorem bind {x : Except ε α} {y : Except ε β} {f : α → Except ε γ} {g : β → Except ε δ}
    (hxy : Matches lenient R E x y) (hfg : ∀ a b, R a b → Matches lenient S E (f a) (g b)) :
    Matches lenient S E (x >>= f) (y >>= g) := by
  cases hxy with
  | ok h => exact hfg _ _ h
  | error h => exact .error h
  | lost h => exact .lost h _ _

/-- The second steps match whatever the first ones both come to. -/
theorem andThen {x y : Except ε α} {f : α → Except ε γ} {g : α → Except ε δ}
    (hxy : Matches lenient Eq E x y) (hfg : ∀ a, Matches lenient S E (f a) (g a)) :
    Matches lenient S E (x >>= f) (y >>= g) := by
  refine hxy.bind fun a b hab => ?_
  subst hab
  exact hfg a

theorem mapM {f : α → Except ε γ} {g : β → Except ε γ} {as : List α} {bs : List β}
    (hlength : as.length = bs.length)
    (h : ∀ (i : Nat) a b, as[i]? = some a → bs[i]? = some b → Matches lenient Eq E (f a) (g b)) :
    Matches lenient Eq E (as.mapM f) (bs.mapM g) := by
  induction as generalizing bs with
  | nil =>
    obtain rfl := List.eq_nil_of_length_eq_zero hlength.symm
    exact .ok rfl
  | cons a as ih =>
    cases bs with
    | nil => cases hlength
    | cons b bs =>
      rw [List.mapM_cons, List.mapM_cons]
      have hrest := ih (Nat.succ.inj hlength) fun i a b ha hb => h (i + 1) a b ha hb
      exact (h 0 a b rfl rfl).andThen fun c => hrest.andThen fun cs => .ok rfl

end Matches

/-- The computation succeeds if and only if `P` holds, and then with `a`. -/
def Returns (a : α) (P : Prop) (x : Except ε α) : Prop := ∀ b, x = .ok b ↔ b = a ∧ P

namespace Returns

variable {a : α} {b : β} {P Q : Prop} {x : Except ε α} {f : α → Except ε β}

theorem ok : Returns a True (.ok a : Except ε α) := by
  intro b
  rw [Except.ok.injEq, and_true, eq_comm]

theorem error {e : ε} (h : ¬ P) : Returns a P (.error e : Except ε α) :=
  fun _ => ⟨nofun, fun hp => absurd hp.2 h⟩

theorem congr (h : Returns a P x) (hpq : P ↔ Q) : Returns a Q x :=
  fun b => (h b).trans (and_congr_right fun _ => hpq)

theorem eq_ok (h : Returns a P x) (hp : P) : x = .ok a := (h a).mpr ⟨rfl, hp⟩

theorem bind (hx : Returns a P x) (hf : Returns b Q (f a)) : Returns b (P ∧ Q) (x >>= f) := by
  intro c
  rw [bind_eq_ok]
  constructor
  · rintro ⟨a', ha', hc⟩
    obtain ⟨rfl, hp⟩ := (hx a').mp ha'
    obtain ⟨rfl, hq⟩ := (hf c).mp hc
    exact ⟨rfl, hp, hq⟩
  · rintro ⟨rfl, hp, hq⟩
    exact ⟨a, hx.eq_ok hp, hf.eq_ok hq⟩

/-- The second step cannot fail. -/
theorem map (hx : Returns a P x) (hf : f a = .ok b) : Returns b P (x >>= f) :=
  (hx.bind (hf ▸ ok)).congr (and_iff_left trivial)

/-- The first step cannot fail. -/
theorem after (hx : x = .ok a) (hf : Returns b Q (f a)) : Returns b Q (x >>= f) := by
  rw [hx]
  exact hf

/-- The first step always fails. -/
theorem stop {e : ε} (hx : x = .error e) (hq : ¬ Q) : Returns b Q (x >>= f) := by
  rw [hx]
  exact error hq

/-- A list comes back from what `g` makes of it if every item does. -/
theorem mapM {f : α → Except ε β} {g : β → α} {P : β → Prop} {l : List β}
    (h : ∀ b ∈ l, Returns b (P b) (f (g b))) :
    Returns l (∀ b ∈ l, P b) ((l.map g).mapM f) := by
  induction l with
  | nil => exact ok.congr (by simp)
  | cons b rest ih =>
    rw [List.map_cons, List.mapM_cons]
    have hrest := ih fun c hc => h c (List.mem_cons_of_mem _ hc)
    refine ((h b List.mem_cons_self).bind ?_).congr List.forall_mem_cons.symm
    exact hrest.map rfl

end Returns

/-- If the computation fails, then with an error that satisfies `P`. -/
def Raises (P : ε → Prop) (x : Except ε α) : Prop := ∀ e, x = .error e → P e

namespace Raises

variable {P Q : ε → Prop}

theorem ok (a : α) : Raises P (.ok a : Except ε α) := fun _ h => nomatch h

theorem error {e : ε} (h : P e) : Raises P (.error e : Except ε α) := by
  intro e' he
  cases he
  exact h

/-- The second step only matters after the first one succeeded. -/
theorem bind {x : Except ε α} {f : α → Except ε β} (hx : Raises P x)
    (hf : ∀ a, x = .ok a → Raises P (f a)) : Raises P (x >>= f) := by
  intro e he
  rcases bind_eq_error.mp he with he | ⟨a, ha, he⟩
  · exact hx e he
  · exact hf a ha e he

theorem mapM {f : α → Except ε β} {l : List α} (h : ∀ a ∈ l, Raises P (f a)) :
    Raises P (l.mapM f) := by
  induction l with
  | nil => exact ok []
  | cons a rest ih =>
    rw [List.mapM_cons]
    refine bind (h a List.mem_cons_self) fun b _ => ?_
    exact bind (ih fun c hc => h c (List.mem_cons_of_mem _ hc)) fun bs _ => ok _

theorem forM {f : α → Except ε PUnit} {l : List α} (h : ∀ a ∈ l, Raises P (f a)) :
    Raises P (l.forM f) := by
  induction l with
  | nil => exact ok _
  | cons a rest ih =>
    exact bind (h a List.mem_cons_self) fun _ _ => ih fun c hc => h c (List.mem_cons_of_mem _ hc)

theorem foldlM {f : β → α → Except ε β} {l : List α} (h : ∀ b, ∀ a ∈ l, Raises P (f b a))
    (b : β) : Raises P (l.foldlM f b) := by
  induction l generalizing b with
  | nil => exact ok b
  | cons a rest ih =>
    rw [List.foldlM_cons]
    exact bind (h b a List.mem_cons_self) fun b' _ =>
      ih (fun b c hc => h b c (List.mem_cons_of_mem _ hc)) b'

theorem filterM {p : α → Except ε Bool} {l : List α} (h : ∀ a ∈ l, Raises P (p a)) :
    Raises P (l.filterM p) := by
  induction l with
  | nil => exact ok []
  | cons a rest ih =>
    rw [filterM_cons]
    refine bind (h a List.mem_cons_self) fun keep _ => ?_
    exact bind (ih fun b hb => h b (List.mem_cons_of_mem _ hb)) fun kept _ => ok _

end Raises

/-- There is a result if and only if `P` holds, and then it is `a`. -/
def Gives (a : α) (P : Prop) (x : Option α) : Prop := ∀ b, x = some b ↔ b = a ∧ P

namespace Gives

variable {a : α} {b : β} {P Q : Prop} {x : Option α} {f : α → Option β}

theorem some : Gives a True (some a) := by
  intro b
  rw [Option.some.injEq, and_true, eq_comm]

theorem none (h : ¬ P) : Gives a P none := fun _ => ⟨nofun, fun hp => absurd hp.2 h⟩

theorem congr (h : Gives a P x) (hpq : P ↔ Q) : Gives a Q x :=
  fun b => (h b).trans (and_congr_right fun _ => hpq)

theorem eq_some (h : Gives a P x) (hp : P) : x = .some a := (h a).mpr ⟨rfl, hp⟩

theorem isSome (h : Gives a P x) : x.isSome = true ↔ P := by
  rw [Option.isSome_iff_exists]
  constructor
  · rintro ⟨b, hb⟩
    exact ((h b).mp hb).2
  · intro hp
    exact ⟨a, h.eq_some hp⟩

theorem bind (hx : Gives a P x) (hf : Gives b Q (f a)) : Gives b (P ∧ Q) (x >>= f) := by
  intro c
  rw [Option.bind_eq_bind, Option.bind_eq_some_iff]
  constructor
  · rintro ⟨a', ha', hc⟩
    obtain ⟨rfl, hp⟩ := (hx a').mp ha'
    obtain ⟨rfl, hq⟩ := (hf c).mp hc
    exact ⟨rfl, hp, hq⟩
  · rintro ⟨rfl, hp, hq⟩
    exact ⟨a, hx.eq_some hp, hf.eq_some hq⟩

/-- The second step cannot fail. -/
theorem map (hx : Gives a P x) (hf : f a = .some b) : Gives b P (x >>= f) :=
  (hx.bind (hf ▸ some)).congr (and_iff_left trivial)

theorem cons {f : β → Option α} {b : β} {as : List α} {bs : List β} (hb : Gives a P (f b))
    (hbs : Gives as Q (bs.mapM f)) : Gives (a :: as) (P ∧ Q) ((b :: bs).mapM f) := by
  rw [List.mapM_cons]
  exact hb.bind (hbs.map rfl)

end Gives

theorem mapM_eq_ok_iff {f : α → Except ε β} {l : List α} {bs : List β} :
    l.mapM f = .ok bs ↔ List.Forall₂ (fun a b => f a = .ok b) l bs := by
  induction l generalizing bs with
  | nil => rw [List.mapM_nil, pure_eq_ok, List.forall₂_nil_left_iff, eq_comm]
  | cons a l ih =>
    rw [List.mapM_cons]
    constructor
    · intro h
      obtain ⟨b, hb, h⟩ := bind_eq_ok.mp h
      obtain ⟨rest, hrest, h⟩ := bind_eq_ok.mp h
      obtain rfl := pure_eq_ok.mp h
      exact .cons hb (ih.mp hrest)
    · intro h
      obtain _ | ⟨hb, hrest⟩ := h
      rw [hb, ih.mpr hrest]
      rfl

theorem mapM_eq_ok_map {f : α → Except ε β} {g : α → β} {l : List α}
    (h : ∀ a ∈ l, f a = .ok (g a)) : l.mapM f = .ok (l.map g) :=
  mapM_eq_ok_iff.mpr (List.forall₂_map_right_iff.mpr (List.forall₂_same.mpr h))

theorem forM_eq_ok {f : α → Except ε PUnit} {l : List α} (h : ∀ a ∈ l, f a = .ok ()) :
    l.forM f = .ok () := by
  induction l with
  | nil => rfl
  | cons a rest ih =>
    obtain ⟨ha, hrest⟩ := List.forall_mem_cons.mp h
    show f a >>= (fun _ => rest.forM f) = .ok ()
    rw [ha, ok_bind, ih hrest]

theorem mapM_eq_some_iff {f : α → Option β} {l : List α} {bs : List β} :
    l.mapM f = some bs ↔ List.Forall₂ (fun a b => f a = some b) l bs := by
  induction l generalizing bs with
  | nil => simp [eq_comm]
  | cons a l ih =>
    rw [List.mapM_cons]
    cases bs with
    | nil => simp [Option.bind_eq_some_iff]
    | cons b bs => simp [Option.bind_eq_some_iff, ← ih]

theorem isSome_mapM_iff {f : α → Option β} {l : List α} :
    (l.mapM f).isSome = true ↔ ∀ a ∈ l, (f a).isSome = true := by
  induction l with
  | nil => simp
  | cons a l ih =>
    rw [List.mapM_cons, List.forall_mem_cons, ← ih]
    cases f a with
    | none => simp
    | some b => cases l.mapM f <;> simp

theorem exists_of_forall₂_right {R : α → β → Prop} {as : List α} {bs : List β}
    (h : List.Forall₂ R as bs) {b : β} (hb : b ∈ bs) : ∃ a ∈ as, R a b := by
  induction h with
  | nil => cases hb
  | cons hr _ ih => grind

theorem exists_of_forall₂_left {R : α → β → Prop} {as : List α} {bs : List β}
    (h : List.Forall₂ R as bs) {a : α} (ha : a ∈ as) : ∃ b ∈ bs, R a b :=
  exists_of_forall₂_right h.flip ha

theorem exists_mapM_ok_iff {f : α → Except ε β} {l : List α} :
    (∃ bs, l.mapM f = .ok bs) ↔ ∀ a ∈ l, ∃ b, f a = .ok b := by
  constructor
  · intro h a ha
    obtain ⟨bs, hbs⟩ := h
    obtain ⟨b, -, hb⟩ := exists_of_forall₂_left (mapM_eq_ok_iff.mp hbs) ha
    exact ⟨b, hb⟩
  · intro h
    induction l with
    | nil => exact ⟨[], rfl⟩
    | cons a rest ih =>
      obtain ⟨⟨b, hb⟩, hrest⟩ := List.forall_mem_cons.mp h
      obtain ⟨bs, hbs⟩ := ih hrest
      exact ⟨b :: bs, by rw [List.mapM_cons, hb, hbs]; rfl⟩

/-- Two lists of steps in a row are one list of both steps, if none of the first ones fails. -/
theorem mapM_mapM {f : α → Except ε β} {g : β → Except ε γ} {l : List α} {bs : List β}
    (h : l.mapM f = .ok bs) : bs.mapM g = l.mapM fun a => f a >>= g := by
  induction l generalizing bs with
  | nil =>
    obtain rfl := pure_eq_ok.mp h
    rfl
  | cons a rest ih =>
    rw [List.mapM_cons] at h
    obtain ⟨b, hb, h⟩ := bind_eq_ok.mp h
    obtain ⟨bs', hbs', h⟩ := bind_eq_ok.mp h
    obtain rfl := pure_eq_ok.mp h
    rw [List.mapM_cons, List.mapM_cons, ih hbs', hb]
    rfl

/-- Steps that do not change how an item is judged can be done before or after the judgement. -/
theorem filterM_of_mapM {f : α → Except ε β} {p : β → Except ε Bool} {q : α → Except ε Bool}
    {l : List α} {bs : List β} (h : l.mapM f = .ok bs)
    (hp : ∀ a ∈ l, ∀ b, f a = .ok b → p b = q a) :
    bs.filterM p = l.filterM q >>= fun kept => kept.mapM f := by
  induction l generalizing bs with
  | nil =>
    obtain rfl := pure_eq_ok.mp h
    rfl
  | cons a rest ih =>
    rw [List.mapM_cons] at h
    obtain ⟨b, hb, h⟩ := bind_eq_ok.mp h
    obtain ⟨bs', hbs', h⟩ := bind_eq_ok.mp h
    obtain rfl := pure_eq_ok.mp h
    obtain ⟨ha, hrest⟩ := List.forall_mem_cons.mp hp
    rw [filterM_cons, filterM_cons, ih hbs' hrest, ha b hb]
    cases q a with
    | error e => rfl
    | ok keep =>
      cases rest.filterM q with
      | error e => rfl
      | ok kept =>
        cases keep with
        | true => simp only [ok_bind, pure_bind, if_true, List.mapM_cons, hb]
        | false => simp only [ok_bind, pure_bind, Bool.false_eq_true, if_false, bind_pure]

end TablePipeline.Outcome
