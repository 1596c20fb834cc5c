import Mathlib.Data.List.Induction

/-!
# Trees of tables

A radix tree kept in memory as tables: `entry t i` is entry `i` of table `t`,
and `child v` is the table that the entry `v` points to, if it points to one.
`descend` follows a path of indices from the root. `slot p i` is entry `i` of
the table at `p`, and the empty entry `zero` where there is no table: two trees
with the same slots hold the same thing, wherever their tables lie.

An edit of a table is local when only one path of a set `P` leads to that table
(`Sole`). Then each edit changes one slot:

* `slot_link`  — linking a fresh blank table into an entry;
* `slot_write` — writing an entry through which `P` passes to no other table;

and both keep tables apart that were apart (`Sole.link`, `Sole.write`), hence a
tree in which all are (`Separate`). Edits of other tables change none (`slot_same`).
-/

namespace TableTree

variable {T I V : Type}

/-- The table at the end of a path. -/
def descend (child : V → Option T) (entry : T → I → V) : T → List I → Option T
  | t, [] => some t
  | t, i :: p => (child (entry t i)).bind fun u => descend child entry u p

/-- The entry at the end of a path, `zero` where the path breaks off. -/
def slot (child : V → Option T) (zero : V) (entry : T → I → V) (r : T) (p : List I) (i : I) : V :=
  ((descend child entry r p).map (entry · i)).getD zero

/-- A set of paths that contains the way to each of its members. -/
def Closed (P : List I → Prop) : Prop := ∀ p i, P (p ++ [i]) → P p

/-- No other path of `P` leads to the table at `p`. -/
def Sole (child : V → Option T) (entry : T → I → V) (r : T) (P : List I → Prop) (p : List I) :
    Prop :=
  ∀ q t, P q → descend child entry r p = some t → descend child entry r q = some t → q = p

/-- Different paths of `P` lead to different tables. -/
def Separate (child : V → Option T) (entry : T → I → V) (r : T) (P : List I → Prop) : Prop :=
  ∀ p q t, P p → P q → descend child entry r p = some t → descend child entry r q = some t → p = q

def IsTable (child : V → Option T) (entry : T → I → V) (r : T) (P : List I → Prop) (t : T) : Prop :=
  ∃ p, P p ∧ descend child entry r p = some t

/-- `entry'` is `entry` with `v` written at entry `i` of table `t`. -/
structure Writes (entry entry' : T → I → V) (t : T) (i : I) (v : V) : Prop where
  here  : entry' t i = v
  other : ∀ u j, ¬ (u = t ∧ j = i) → entry' u j = entry u j

/-- `entry'` is `entry` with the table `n` blanked and linked in by the entry
`v` at entry `i` of table `t`. -/
structure Links (child : V → Option T) (zero : V) (entry entry' : T → I → V) (t : T) (i : I)
    (n : T) (v : V) : Prop where
  here  : entry' t i = v
  below : child v = some n
  blank : ∀ j, entry' n j = zero
  other : ∀ u j, u ≠ n → ¬ (u = t ∧ j = i) → entry' u j = entry u j

variable {child : V → Option T} {zero : V} {entry entry' : T → I → V} {r t n : T}
  {P : List I → Prop} {p q : List I} {i j : I} {v : V}

@[simp] theorem descend_nil : descend child entry t [] = some t := rfl

/-- The last step of a path. -/
theorem descend_concat (t : T) (p : List I) (i : I) :
    descend child entry t (p ++ [i]) =
      (descend child entry t p).bind fun u => child (entry u i) := by
  induction p generalizing t with
  | nil => simp [descend]
  | cons j p ih =>
    simp only [List.cons_append, descend]
    cases child (entry t j) with
    | none => rfl
    | some u => exact ih u

theorem slot_of_descend (h : descend child entry r p = some t) :
    slot child zero entry r p i = entry t i := by
  simp [slot, h]

theorem slot_of_none (h : descend child entry r p = none) :
    slot child zero entry r p i = zero := by
  simp [slot, h]

/-- The slots say which tables there are. -/
theorem descend_slot (hzero : child zero = none) :
    descend child entry r (p ++ [i]) = child (slot child zero entry r p i) := by
  rw [descend_concat]
  cases h : descend child entry r p with
  | none => rw [slot_of_none h, hzero, Option.bind_none]
  | some t => rw [slot_of_descend h, Option.bind_some]

theorem Separate.sole (hsep : Separate child entry r P) (hp : P p) : Sole child entry r P p :=
  fun q t hq ht hu => hsep q p t hq hp hu ht

theorem separate_of_sole (h : ∀ p, P p → Sole child entry r P p) : Separate child entry r P :=
  fun p q t hp hq ht hu => h q hq p t hp hu ht

/-! ## Edits elsewhere -/

section Same

-- the tables that `P` leads to are as before
variable (hclosed : Closed P) (hsame : ∀ t, IsTable child entry r P t → ∀ i, entry' t i = entry t i)

include hclosed hsame

theorem descend_same (hp : P p) : descend child entry' r p = descend child entry r p := by
  induction p using List.reverseRecOn with
  | nil => rfl
  | append_singleton p i ih =>
    have hPp := hclosed p i hp
    rw [descend_concat, descend_concat, ih hPp]
    cases ht : descend child entry r p with
    | none => rfl
    | some t => rw [Option.bind_some, Option.bind_some, hsame t ⟨p, hPp, ht⟩]

theorem slot_same (hp : P p) : slot child zero entry' r p i = slot child zero entry r p i := by
  cases ht : descend child entry r p with
  | none => rw [slot_of_none ht, slot_of_none ((descend_same hclosed hsame hp).trans ht)]
  | some t =>
    rw [slot_of_descend ht, slot_of_descend ((descend_same hclosed hsame hp).trans ht),
      hsame t ⟨p, hp, ht⟩]

end Same

/-! ## Writing an entry -/

section Write

-- `v` is written at entry `i` of the table `t`, which `p` alone leads to
variable (hclosed : Closed P) (hsole : Sole child entry r P p)
  (ht : descend child entry r p = some t) (hrim : P (p ++ [i]) → child v = child (entry t i))
  (hw : Writes entry entry' t i v)

include hclosed hsole ht hrim hw

/-- A write that leads where the old entry led moves no table. -/
theorem descend_write (hq : P q) : descend child entry' r q = descend child entry r q := by
  induction q using List.reverseRecOn with
  | nil => rfl
  | append_singleton q j ih =>
    have hPq := hclosed q j hq
    rw [descend_concat, descend_concat, ih hPq]
    cases hu : descend child entry r q with
    | none => rfl
    | some u =>
      rw [Option.bind_some, Option.bind_some]
      by_cases hui : u = t ∧ j = i
      · -- the written entry is on the way, and leads to the same table
        obtain ⟨rfl, rfl⟩ := hui
        rw [hw.here]
        exact hrim (hsole q u hPq ht hu ▸ hq)
      · rw [hw.other u j hui]

theorem Sole.write {p' : List I} (hp' : P p') (h : Sole child entry r P p') :
    Sole child entry' r P p' := by
  intro q u hq hu hu'
  rw [descend_write hclosed hsole ht hrim hw hp'] at hu
  rw [descend_write hclosed hsole ht hrim hw hq] at hu'
  exact h q u hq hu hu'

theorem Separate.write (hsep : Separate child entry r P) : Separate child entry' r P :=
  separate_of_sole fun _ hp' =>
    Sole.write hclosed hsole ht hrim hw hp' (hsep.sole hp')

theorem isTable_write {u : T} (hu : IsTable child entry' r P u) : IsTable child entry r P u := by
  obtain ⟨q, hq, hu⟩ := hu
  exact ⟨q, hq, descend_write hclosed hsole ht hrim hw hq ▸ hu⟩

/-- **Writing an entry changes its slot only.** -/
theorem slot_write [DecidableEq I] (hq : P q) :
    slot child zero entry' r q j =
      if q = p ∧ j = i then v else slot child zero entry r q j := by
  have hdesc := descend_write hclosed hsole ht hrim hw hq
  cases hu : descend child entry r q with
  | none =>
    rw [slot_of_none (hdesc.trans hu), slot_of_none hu, if_neg]
    rintro ⟨rfl, -⟩
    simp [ht] at hu
  | some u =>
    rw [slot_of_descend (hdesc.trans hu), slot_of_descend hu]
    split_ifs with h
    · obtain ⟨rfl, rfl⟩ := h
      obtain rfl : t = u := Option.some.inj (ht.symm.trans hu)
      exact hw.here
    · refine hw.other u j fun hut => h ⟨?_, hut.2⟩
      exact hsole q t hq ht (hut.1 ▸ hu)

end Write

/-! ## Linking a fresh table -/

section Link

-- the blank table `n` is linked at an entry of the table `t`, which led nowhere
variable (hzero : child zero = none) (hclosed : Closed P) (hsole : Sole child entry r P p)
  (ht : descend child entry r p = some t) (hnone : child (entry t i) = none)
  (hfresh : ¬ IsTable child entry r P n) (hl : Links child zero entry entry' t i n v)

include hzero hclosed hsole ht hnone hfresh hl

/-- Where there was no table at `p ++ [i]` there is `n`; every other path leads
where it led. -/
theorem descend_link (hq : P q) :
    (q = p ++ [i] → descend child entry' r q = some n) ∧
    (q ≠ p ++ [i] → descend child entry' r q = descend child entry r q) := by
  induction q using List.reverseRecOn with
  | nil => exact ⟨fun h => by simp at h, fun _ => rfl⟩
  | append_singleton q j ih =>
    have hPq := hclosed q j hq
    obtain ⟨heq, hother⟩ := ih hPq
    rw [descend_concat, descend_concat]
    by_cases hqp : q = p ++ [i]
    · -- below the new link: nothing before, and nothing in the blank table
      subst hqp
      refine ⟨fun h => absurd (congrArg List.length h) (by simp), fun _ => ?_⟩
      rw [heq rfl, descend_concat, ht]
      simp [hl.blank, hzero, hnone]
    · rw [hother hqp]
      constructor
      · intro h
        obtain ⟨rfl, hji⟩ := List.append_inj' h rfl
        obtain rfl : j = i := by simpa using hji
        rw [ht, Option.bind_some, hl.here, hl.below]
      · intro hne
        cases hu : descend child entry r q with
        | none => rfl
        | some u =>
          have hun : u ≠ n := fun e => hfresh ⟨q, hPq, e ▸ hu⟩
          have hui : ¬ (u = t ∧ j = i) := by
            rintro ⟨rfl, rfl⟩
            exact hne (congrArg (· ++ [j]) (hsole q u hPq ht hu))
          rw [Option.bind_some, Option.bind_some, hl.other u j hun hui]

/-- The new table is reached by one path, and the others as before. -/
theorem Sole.link {p' : List I} (hp' : P p') (h : p' = p ++ [i] ∨ Sole child entry r P p') :
    Sole child entry' r P p' := by
  intro q u hq hu hu'
  have hdesc := fun {q} (hq : P q) => descend_link hzero hclosed hsole ht hnone hfresh hl hq
  by_cases hpn : p' = p ++ [i] <;> by_cases hqn : q = p ++ [i]
  · rw [hpn, hqn]
  · -- one of the two is the new table, the other an old one
    rw [(hdesc hp').1 hpn] at hu
    rw [(hdesc hq).2 hqn] at hu'
    exact absurd ⟨q, hq, (Option.some.inj hu) ▸ hu'⟩ hfresh
  · rw [(hdesc hp').2 hpn] at hu
    rw [(hdesc hq).1 hqn] at hu'
    exact absurd ⟨p', hp', (Option.some.inj hu') ▸ hu⟩ hfresh
  · rw [(hdesc hp').2 hpn] at hu
    rw [(hdesc hq).2 hqn] at hu'
    exact (h.resolve_left hpn) q u hq hu hu'

theorem Separate.link (hsep : Separate child entry r P) : Separate child entry' r P :=
  separate_of_sole fun _ hp' =>
    Sole.link hzero hclosed hsole ht hnone hfresh hl hp' (Or.inr (hsep.sole hp'))

theorem isTable_link {u : T} (hu : IsTable child entry' r P u) :
    u = n ∨ IsTable child entry r P u := by
  obtain ⟨q, hq, hu⟩ := hu
  obtain ⟨heq, hother⟩ := descend_link hzero hclosed hsole ht hnone hfresh hl hq
  by_cases h : q = p ++ [i]
  · rw [heq h] at hu
    exact Or.inl (Option.some.inj hu).symm
  · exact Or.inr ⟨q, hq, hother h ▸ hu⟩

/-- **Linking a fresh blank table changes one slot.** The slots of the new
table read `zero`, as they did when there was no table. -/
theorem slot_link [DecidableEq I] (hq : P q) :
    slot child zero entry' r q j =
      if q = p ∧ j = i then v else slot child zero entry r q j := by
  obtain ⟨heq, hother⟩ := descend_link hzero hclosed hsole ht hnone hfresh hl hq
  by_cases hnew : q = p ++ [i]
  · have hne : ¬ (q = p ∧ j = i) := fun h => by simp [h.1] at hnew
    have hbefore : descend child entry r q = none := by
      rw [hnew, descend_concat, ht, Option.bind_some, hnone]
    rw [slot_of_descend (heq hnew), slot_of_none hbefore, hl.blank, if_neg hne]
  · cases hu : descend child entry r q with
    | none =>
      rw [slot_of_none ((hother hnew).trans hu), slot_of_none hu, if_neg]
      rintro ⟨rfl, -⟩
      simp [ht] at hu
    | some u =>
      rw [slot_of_descend ((hother hnew).trans hu), slot_of_descend hu]
      split_ifs with h
      · obtain ⟨rfl, rfl⟩ := h
        obtain rfl : t = u := Option.some.inj (ht.symm.trans hu)
        exact hl.here
      · have hun : u ≠ n := fun e => hfresh ⟨q, hq, e ▸ hu⟩
        refine hl.other u j hun fun hut => h ⟨?_, hut.2⟩
        exact hsole q t hq ht (hut.1 ▸ hu)

end Link

end TableTree
