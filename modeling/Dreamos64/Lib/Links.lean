import Mathlib.Data.List.Nodup

/-!
# Singly linked chains

Nodes live at addresses of an arbitrary type `α`; `next : α → Option α` reads
the link of a node, `none` being NULL. `Seg next h l e` says that following
`next` from `h` visits exactly the nodes of `l`, in order, and then holds `e`;
`Chain next h l` is the NULL-terminated case.

A chain is determined by its head (`Chain.unique`) and therefore finite *and*
acyclic (`Chain.nodup`): a node met twice would have two different tails. The
edits a list manipulating program makes are local: `Chain.congr` transports a
chain to links that agree on its nodes, `chain_split` cuts it at a node,
`Chain.insert` and `Chain.unlink` add and remove the node after a given one.
-/

namespace Links

variable {α : Type} {next next' : α → Option α}

/-- Following `next` from `h` visits `l` and then holds `e`. -/
def Seg (next : α → Option α) : Option α → List α → Option α → Prop
  | h, [], e => h = e
  | h, x :: l, e => h = some x ∧ Seg next (next x) l e

/-- A NULL-terminated chain. -/
def Chain (next : α → Option α) (h : Option α) (l : List α) : Prop := Seg next h l none

@[simp] theorem seg_nil {h e : Option α} : Seg next h [] e ↔ h = e := Iff.rfl

@[simp] theorem seg_cons {h e : Option α} {x : α} {l : List α} :
    Seg next h (x :: l) e ↔ h = some x ∧ Seg next (next x) l e := Iff.rfl

@[simp] theorem chain_nil {h : Option α} : Chain next h [] ↔ h = none := Iff.rfl

@[simp] theorem chain_cons {h : Option α} {x : α} {l : List α} :
    Chain next h (x :: l) ↔ h = some x ∧ Chain next (next x) l := Iff.rfl

/-- A segment is cut at any point, the link there joining the halves. -/
theorem seg_append {l₁ l₂ : List α} {h e : Option α} :
    Seg next h (l₁ ++ l₂) e ↔ ∃ m, Seg next h l₁ m ∧ Seg next m l₂ e := by
  induction l₁ generalizing h with
  | nil => simp
  | cons x l₁ ih => simp [ih, and_assoc]

/-- Segments read the links of their own nodes only. -/
theorem Seg.congr {l : List α} {h e : Option α} (hs : Seg next h l e)
    (hag : ∀ x ∈ l, next' x = next x) : Seg next' h l e := by
  induction l generalizing h with
  | nil => exact hs
  | cons x l ih =>
    obtain ⟨hx, hl⟩ := hs
    refine ⟨hx, ?_⟩
    rw [hag x List.mem_cons_self]
    exact ih hl fun y hy => hag y (List.mem_cons_of_mem _ hy)

theorem Chain.congr {l : List α} {h : Option α} (hc : Chain next h l)
    (hag : ∀ x ∈ l, next' x = next x) : Chain next' h l :=
  Seg.congr hc hag

/-- A chain cut at one of its nodes. -/
theorem chain_split {l₁ l₂ : List α} {h : Option α} {x : α} :
    Chain next h (l₁ ++ x :: l₂) ↔ Seg next h l₁ (some x) ∧ Chain next (next x) l₂ := by
  unfold Chain
  rw [seg_append]
  constructor
  · rintro ⟨m, hl, hm, hr⟩
    exact ⟨hm ▸ hl, hr⟩
  · rintro ⟨hl, hr⟩
    exact ⟨some x, hl, rfl, hr⟩

/-- The head determines the chain. -/
theorem Chain.unique {l l' : List α} {h : Option α} (hl : Chain next h l)
    (hl' : Chain next h l') : l = l' := by
  induction l generalizing h l' with
  | nil =>
    cases l' with
    | nil => rfl
    | cons y l' => simp_all
  | cons x l ih =>
    cases l' with
    | nil => simp_all
    | cons y l' =>
      obtain ⟨hx, hl⟩ := hl
      obtain ⟨hy, hl'⟩ := hl'
      obtain rfl : x = y := Option.some.inj (hx.symm.trans hy)
      rw [ih hl hl']

/-- **A chain is acyclic.** Two visits of one node would be followed by the
same nodes, yet the second is strictly nearer to the end. -/
theorem Chain.nodup {l : List α} {h : Option α} (hc : Chain next h l) : l.Nodup := by
  induction l generalizing h with
  | nil => exact List.nodup_nil
  | cons x l ih =>
    obtain ⟨-, hl⟩ := hc
    refine List.nodup_cons.mpr ⟨fun hx => ?_, ih hl⟩
    obtain ⟨l₁, l₂, rfl⟩ := List.append_of_mem hx
    have htail := (chain_split.mp hl).2
    have heq := congrArg List.length (Chain.unique hl htail)
    simp at heq
    omega

/-- The link of a node is the node that follows it in the chain. -/
theorem Chain.next_eq {l₁ l₂ : List α} {h : Option α} {x : α}
    (hc : Chain next h (l₁ ++ x :: l₂)) : next x = l₂.head? := by
  have htail := (chain_split.mp hc).2
  cases l₂ with
  | nil => exact htail
  | cons y l₂ => exact htail.1

/-- The successor of a node of the chain is in the chain. -/
theorem Chain.next_mem {l : List α} {h : Option α} (hc : Chain next h l) {x y : α}
    (hx : x ∈ l) (hy : next x = some y) : y ∈ l := by
  obtain ⟨l₁, l₂, rfl⟩ := List.append_of_mem hx
  rw [hc.next_eq] at hy
  simp [List.mem_of_mem_head? hy]

/-- The head of the chain is the first node of its list. -/
theorem Chain.head_eq {l : List α} {h : Option α} (hc : Chain next h l) : h = l.head? := by
  cases l with
  | nil => exact hc
  | cons x l => exact hc.1

/-- Inserting `y` after `x` writes the links of `x` and `y` only. -/
theorem Chain.insert {l₁ l₂ : List α} {h : Option α} {x y : α}
    (hc : Chain next h (l₁ ++ x :: l₂)) (hy : y ∉ l₁ ++ x :: l₂)
    (hxy : next' x = some y) (hyx : next' y = next x)
    (hag : ∀ z, z ≠ x → z ≠ y → next' z = next z) :
    Chain next' h (l₁ ++ x :: y :: l₂) := by
  have hnd := hc.nodup
  rw [List.nodup_append] at hnd
  obtain ⟨-, hndr, hdisj⟩ := hnd
  obtain ⟨hl, hr⟩ := chain_split.mp hc
  simp only [List.mem_append, List.mem_cons, not_or] at hy
  refine chain_split.mpr ⟨hl.congr fun z hz => hag z ?_ ?_, ?_⟩
  · exact fun hzx => hdisj z hz x List.mem_cons_self hzx
  · exact fun hzy => hy.1 (hzy ▸ hz)
  · rw [hxy, chain_cons, hyx]
    refine ⟨rfl, hr.congr fun z hz => hag z ?_ ?_⟩
    · exact fun hzx => (List.nodup_cons.mp hndr).1 (hzx ▸ hz)
    · exact fun hzy => hy.2.2 (hzy ▸ hz)

/-- Unlinking the node after `x` writes the link of `x` only. -/
theorem Chain.unlink {l₁ l₂ : List α} {h : Option α} {x y : α}
    (hc : Chain next h (l₁ ++ x :: y :: l₂)) (hx : next' x = next y)
    (hag : ∀ z ∈ l₁ ++ l₂, z ≠ x → next' z = next z) :
    Chain next' h (l₁ ++ x :: l₂) := by
  have hnd := hc.nodup
  rw [List.nodup_append] at hnd
  obtain ⟨-, hndr, hdisj⟩ := hnd
  obtain ⟨hl, hr⟩ := chain_split.mp hc
  obtain ⟨-, hr⟩ := chain_cons.mp hr
  refine chain_split.mpr ⟨hl.congr fun z hz => hag z ?_ ?_, ?_⟩
  · exact List.mem_append_left _ hz
  · exact fun hzx => hdisj z hz x List.mem_cons_self hzx
  · rw [hx]
    refine hr.congr fun z hz => hag z (List.mem_append_right _ hz) fun hzx => ?_
    exact (List.nodup_cons.mp hndr).1 (hzx ▸ List.mem_cons_of_mem _ hz)

/-- Two nodes of a chain with the same successor are the same node. -/
theorem Chain.next_inj {l : List α} {h : Option α} (hc : Chain next h l) {x y z : α}
    (hx : x ∈ l) (hy : y ∈ l) (hxz : next x = some z) (hyz : next y = some z) : x = y := by
  obtain ⟨l₁, l₂, rfl⟩ := List.append_of_mem hx
  obtain ⟨k₁, k₂, hk⟩ := List.append_of_mem hy
  -- the tails after `x` and after `y` both start at `z`, hence are equal
  have hx₂ : Chain next (some z) l₂ := hxz ▸ (chain_split.mp hc).2
  have hy₂ : Chain next (some z) k₂ := hyz ▸ (chain_split.mp (hk ▸ hc)).2
  have htail := hx₂.unique hy₂
  subst htail
  have hlast := List.append_cancel_right_eq (l₁ ++ [x]) l₂ (k₁ ++ [y])
  simp only [List.append_assoc, List.singleton_append] at hlast
  exact (List.append_inj_right' (hlast.mp hk) rfl |> List.cons.inj).1

/-- A list without repetitions does not have one of its members twice. -/
theorem not_mem_of_nodup_middle {l₁ l₂ : List α} {x : α} (hnd : (l₁ ++ x :: l₂).Nodup) :
    x ∉ l₁ ++ l₂ := by
  have hperm : (l₁ ++ x :: l₂).Perm (x :: (l₁ ++ l₂)) := List.perm_middle
  exact (List.nodup_cons.1 (hperm.nodup_iff.1 hnd)).1

/-! ## Back links -/

/-- Every node's successor links back to it. -/
def Paired (next prev : α → Option α) (l : List α) : Prop :=
  ∀ x ∈ l, ∀ y, next x = some y → prev y = some x

variable {prev prev' : α → Option α}

/-- Inserting `y` after `x` keeps the back links when `y` and the old successor
of `x` are pointed at their new predecessors. -/
theorem Paired.insert {l₁ l₂ : List α} {h : Option α} {x y : α}
    (hp : Paired next prev (l₁ ++ x :: l₂)) (hc : Chain next h (l₁ ++ x :: l₂))
    (hxy : next' x = some y) (hyx : next' y = next x)
    (hag : ∀ z, z ≠ x → z ≠ y → next' z = next z)
    (hy : y ∉ l₁ ++ x :: l₂) (hpy : prev' y = some x)
    (hpz : ∀ z, next x = some z → prev' z = some y)
    (hpag : ∀ z, z ≠ y → next x ≠ some z → prev' z = prev z) :
    Paired next' prev' (l₁ ++ x :: y :: l₂) := by
  intro w hw v hv
  by_cases hwx : w = x
  · subst hwx
    rw [hxy] at hv
    exact Option.some.inj hv ▸ hpy
  by_cases hwy : w = y
  · subst hwy
    exact hpz v (hyx ▸ hv)
  -- an untouched node: its successor is neither `y` nor the old successor of `x`
  have hwl : w ∈ l₁ ++ x :: l₂ := by
    simp only [List.mem_append, List.mem_cons] at hw ⊢
    tauto
  have hv' : next w = some v := hag w hwx hwy ▸ hv
  have hvl : v ∈ l₁ ++ x :: l₂ := hc.next_mem hwl hv'
  rw [hpag v (fun e => hy (e ▸ hvl)) fun hxv => hwx ?_]
  · exact hp w hwl v hv'
  · exact hc.next_inj hwl (by simp) hv' hxv

/-- Unlinking the node `y` after `x` keeps the back links when the node after
`y` is pointed at `x`. -/
theorem Paired.unlink {l₁ l₂ : List α} {h : Option α} {x y : α}
    (hp : Paired next prev (l₁ ++ x :: y :: l₂)) (hc : Chain next h (l₁ ++ x :: y :: l₂))
    (hx : next' x = next y) (hag : ∀ z ∈ l₁ ++ l₂, z ≠ x → next' z = next z)
    (hpz : ∀ z, next y = some z → prev' z = some x)
    (hpag : ∀ z, next y ≠ some z → prev' z = prev z) :
    Paired next' prev' (l₁ ++ x :: l₂) := by
  intro w hw v hv
  by_cases hwx : w = x
  · subst hwx
    exact hpz v (hx ▸ hv)
  have hwl : w ∈ l₁ ++ l₂ := by
    simp only [List.mem_append, List.mem_cons] at hw ⊢
    tauto
  have hwl' : w ∈ l₁ ++ x :: y :: l₂ := by
    simp only [List.mem_append, List.mem_cons] at hwl ⊢
    tauto
  have hv' : next w = some v := hag w hwl hwx ▸ hv
  rw [hpag v fun hyv => ?_]
  · exact hp w hwl' v hv'
  · -- only `y` itself has the successor of `y`
    have hwy : w = y := hc.next_inj hwl' (by simp) hv' hyv
    have hnd := hc.nodup
    simp only [List.nodup_append, List.nodup_cons, List.mem_cons, List.mem_append] at hnd hwl
    rcases hwl with hwl | hwl
    · exact hnd.2.2 w hwl w (by simp [hwy]) rfl
    · exact hnd.2.1.2.1 (hwy ▸ hwl)

end Links
