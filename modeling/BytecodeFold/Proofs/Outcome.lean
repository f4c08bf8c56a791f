import BytecodeFold.Bytes.Cursor
import Mathlib.Data.List.Forall2

/-!
# Outcomes of computations that may fail

A sequence of steps succeeds exactly when each of them does. The lemmas here take such a
sequence apart, also when it runs once for every element of a list.
-/

namespace BytecodeFold

namespace Outcome

variable {ε α β : Type}

theorem bind_eq_ok {x : Except ε α} {f : α → Except ε β} {b : β} :
    (x >>= f) = .ok b ↔ ∃ a, x = .ok a ∧ f a = .ok b := by
  cases x with
  | error e =>
    constructor
    · intro h
      cases h
    · rintro ⟨a, h, -⟩
      cases h
  | ok a =>
    constructor
    · intro h
      exact ⟨a, rfl, h⟩
    · rintro ⟨a', h, hf⟩
      cases h
      exact hf

theorem map_eq_ok {x : Except ε α} {f : α → β} {b : β} :
    (f <$> x) = .ok b ↔ ∃ a, x = .ok a ∧ f a = b := by
  cases x with
  | error e =>
    constructor
    · intro h
      cases h
    · rintro ⟨a, h, -⟩
      cases h
  | ok a =>
    constructor
    · intro h
      cases h
      exact ⟨a, rfl, rfl⟩
    · rintro ⟨a', h, rfl⟩
      cases h
      rfl

/-- A sequence fails where one of its steps does. -/
theorem bind_eq_error {x : Except ε α} {f : α → Except ε β} {e : ε} :
    (x >>= f) = .error e ↔ x = .error e ∨ ∃ a, x = .ok a ∧ f a = .error e := by
  cases x with
  | error e' =>
    constructor
    · intro h
      cases h
      exact .inl rfl
    · rintro (h | ⟨a, h, -⟩)
      · cases h
        rfl
      · cases h
  | ok a =>
    constructor
    · intro h
      exact .inr ⟨a, rfl, h⟩
    · rintro (h | ⟨a', h, hf⟩)
      · cases h
      · cases h
        exact hf

theorem map_eq_error {x : Except ε α} {f : α → β} {e : ε} :
    (f <$> x) = .error e ↔ x = .error e := by
  cases x with
  | error e' =>
    constructor
    · intro h
      cases h
      rfl
    · intro h
      cases h
      rfl
  | ok a =>
    constructor
    · intro h
      cases h
    · intro h
      cases h

@[simp] theorem ok_bind (a : α) (f : α → Except ε β) : (Except.ok a >>= f) = f a := rfl

@[simp] theorem error_bind (e : ε) (f : α → Except ε β) :
    (Except.error e >>= f) = Except.error e := rfl

@[simp] theorem pure_eq_ok (a : α) : (pure a : Except ε α) = .ok a := rfl

@[simp] theorem throw_eq_error (e : ε) : (throw e : Except ε α) = .error e := rfl

/-- A list is mapped successfully when each of its elements is. -/
theorem list_mapM_eq_ok {f : α → Except ε β} {as : List α} {bs : List β} :
    as.mapM f = .ok bs ↔ List.Forall₂ (fun a b => f a = .ok b) as bs := by
  induction as generalizing bs with
  | nil =>
    simp only [List.mapM_nil, pure_eq_ok, Except.ok.injEq, List.forall₂_nil_left_iff]
    exact eq_comm
  | cons a as ih =>
    rw [List.mapM_cons, bind_eq_ok]
    constructor
    · rintro ⟨b, hb, h⟩
      obtain ⟨bs', hbs, h⟩ := bind_eq_ok.mp h
      cases h
      exact .cons hb (ih.mp hbs)
    · intro h
      cases h with
      | cons hb hbs => exact ⟨_, hb, bind_eq_ok.mpr ⟨_, ih.mpr hbs, rfl⟩⟩

theorem array_mapM_eq_ok {f : α → Except ε β} {as : Array α} {bs : Array β} :
    as.mapM f = .ok bs ↔ List.Forall₂ (fun a b => f a = .ok b) as.toList bs.toList := by
  rw [Array.mapM_eq_mapM_toList, map_eq_ok, ← list_mapM_eq_ok]
  constructor
  · rintro ⟨l, hl, rfl⟩
    exact hl
  · intro h
    exact ⟨bs.toList, h, rfl⟩

/-- Every result comes from an element. -/
theorem exists_of_mem_right {r : α → β → Prop} {as : List α} {bs : List β} {b : β}
    (h : List.Forall₂ r as bs) (hb : b ∈ bs) : ∃ a ∈ as, r a b := by
  induction h with
  | nil => cases hb
  | cons hab _ ih =>
    rcases List.mem_cons.mp hb with rfl | hb
    · exact ⟨_, List.mem_cons_self, hab⟩
    · obtain ⟨a, ha, hr⟩ := ih hb
      exact ⟨a, List.mem_cons_of_mem _ ha, hr⟩

theorem forall₂_imp_of_mem {r s : α → β → Prop} {as : List α} {bs : List β}
    (h : List.Forall₂ r as bs) (hs : ∀ a ∈ as, ∀ b, r a b → s a b) : List.Forall₂ s as bs := by
  induction h with
  | nil => exact .nil
  | cons hab _ ih =>
    exact .cons (hs _ List.mem_cons_self _ hab) (ih fun a ha => hs a (List.mem_cons_of_mem _ ha))

theorem forall₂_getElem? {r : α → β → Prop} {as : List α} {bs : List β} (h : List.Forall₂ r as bs)
    {i : Nat} {a : α} {b : β} (ha : as[i]? = some a) (hb : bs[i]? = some b) : r a b := by
  induction h generalizing i with
  | nil => cases ha
  | cons hab _ ih =>
    cases i with
    | zero =>
      cases ha
      cases hb
      exact hab
    | succ i => exact ih ha hb

theorem map_eq_of_forall₂ {γ : Type} {f : α → γ} {g : β → γ} {as : List α} {bs : List β}
    (h : List.Forall₂ (fun a b => f a = g b) as bs) : as.map f = bs.map g := by
  induction h with
  | nil => rfl
  | cons hab _ ih => rw [List.map_cons, List.map_cons, hab, ih]

theorem forall₂_append_right {r : α → β → Prop} {as : List α} {bs bs' : List β}
    (h : List.Forall₂ r as (bs ++ bs')) : ∃ front back, as = front ++ back ∧
      List.Forall₂ r front bs ∧ List.Forall₂ r back bs' :=
  ⟨as.take bs.length, as.drop bs.length, (List.take_append_drop _ _).symm,
    List.forall₂_take_append _ _ _ h, List.forall₂_drop_append _ _ _ h⟩

/-! ## Computations that agree -/

/-- Both computations fail, or both succeed with results that are related. -/
inductive Agree (r : α → β → Prop) : Except ε α → Except ε β → Prop where
  | ok {a : α} {b : β} (h : r a b) : Agree r (.ok a) (.ok b)
  | error (e e' : ε) : Agree r (.error e) (.error e')

namespace Agree

variable {γ δ : Type} {r : α → β → Prop} {s : γ → δ → Prop} {as : List α} {bs : List β}

theorem refl (x : Except ε α) : Agree Eq x x := by
  cases x with
  | error e => exact .error e e
  | ok a => exact .ok rfl

theorem eq_ok {x y : Except ε α} (h : Agree Eq x y) {a : α} : x = .ok a ↔ y = .ok a := by
  cases h with
  | ok h => rw [h]
  | error e e' => simp

theorem of_ok {y : Except ε β} {a : α} (h : Agree r (.ok a) y) : ∃ b, y = .ok b ∧ r a b := by
  cases h with
  | ok h => exact ⟨_, rfl, h⟩

theorem of_error {y : Except ε β} {e : ε} (h : Agree r (.error e) y) : ∃ e', y = .error e' := by
  cases h with
  | error e e' => exact ⟨e', rfl⟩

theorem bind {x : Except ε α} {y : Except ε β} (h : Agree r x y) {f : α → Except ε γ}
    {g : β → Except ε δ} (next : ∀ a b, r a b → Agree s (f a) (g b)) :
    Agree s (x >>= f) (y >>= g) := by
  cases h with
  | ok h => exact next _ _ h
  | error e e' => exact .error e e'

theorem bind_eq {x y : Except ε α} (h : Agree Eq x y) {f : α → Except ε γ} {g : α → Except ε δ}
    (next : ∀ a, Agree s (f a) (g a)) : Agree s (x >>= f) (y >>= g) := by
  refine h.bind ?_
  rintro a _ rfl
  exact next a

theorem list_mapM {f : α → Except ε γ} {g : β → Except ε δ} (h : List.Forall₂ r as bs)
    (hs : ∀ a b, r a b → Agree s (f a) (g b)) :
    Agree (List.Forall₂ s) (as.mapM f) (bs.mapM g) := by
  induction h with
  | nil => exact .ok .nil
  | cons hab _ ih =>
    rw [List.mapM_cons, List.mapM_cons]
    exact (hs _ _ hab).bind fun _ _ hhead => ih.bind fun _ _ htail => .ok (.cons hhead htail)

theorem list_mapM_eq {f : α → Except ε γ} {g : β → Except ε γ} (h : List.Forall₂ r as bs)
    (hs : ∀ a b, r a b → Agree Eq (f a) (g b)) : Agree Eq (as.mapM f) (bs.mapM g) := by
  have hlist := list_mapM h hs
  rwa [List.forall₂_eq_eq_eq] at hlist

theorem array_mapM {as : Array α} {bs : Array β} {f : α → Except ε γ} {g : β → Except ε δ}
    (h : List.Forall₂ r as.toList bs.toList) (hs : ∀ a b, r a b → Agree s (f a) (g b)) :
    Agree (fun xs ys => List.Forall₂ s xs.toList ys.toList) (as.mapM f) (bs.mapM g) := by
  rw [Array.mapM_eq_mapM_toList, Array.mapM_eq_mapM_toList]
  have hlist := list_mapM h hs
  generalize as.toList.mapM f = x at hlist ⊢
  generalize bs.toList.mapM g = y at hlist ⊢
  cases hlist with
  | ok h => exact .ok h
  | error e e' => exact .error e e'

theorem list_foldlM {f : γ → α → Except ε γ} {g : γ → β → Except ε γ} (h : List.Forall₂ r as bs)
    (hs : ∀ state a b, r a b → Agree Eq (f state a) (g state b)) (state : γ) :
    Agree Eq (as.foldlM f state) (bs.foldlM g state) := by
  induction h generalizing state with
  | nil => exact .refl _
  | cons hab _ ih =>
    rw [List.foldlM_cons, List.foldlM_cons]
    exact (hs state _ _ hab).bind_eq ih

end Agree

end Outcome

/-- A reader that goes on with another succeeds when both do. -/
theorem Reader.bind_eq_ok {α β : Type} {r : Reader α} {f : α → Reader β} {start stop : Cursor}
    {b : β} : (r >>= f) start = .ok (b, stop) ↔
      ∃ a mid, r start = .ok (a, mid) ∧ f a mid = .ok (b, stop) := by
  change (r start >>= fun result => f result.1 result.2) = _ ↔ _
  rw [Outcome.bind_eq_ok]
  constructor
  · rintro ⟨⟨a, mid⟩, hr, hf⟩
    exact ⟨a, mid, hr, hf⟩
  · rintro ⟨a, mid, hr, hf⟩
    exact ⟨(a, mid), hr, hf⟩

end BytecodeFold
