import Mathlib.Data.List.Basic
import Mathlib.Data.Set.Basic

/-!
# Moves within one store

A list of cells is worked through from its head. Each cell gets what its source holds at that
moment, and the source may be blanked after it was read. The sources are cells of the same
store, so what arrives depends on the order: in an `Ordered` list no source was touched before
its turn comes.

* `Cells.get_moves`       — every cell after the moves of an ordered list;
* `Cells.get_moves_other` — a cell that is no destination and no source stays, in any order.
-/

namespace InPlace

/-- The cells of a store. What is written to a valid cell is read from it, and from no other
valid cell. -/
structure Cells (σ κ α : Type) [DecidableEq κ] where
  get     : σ → κ → α
  put     : κ → α → σ → σ
  valid   : Set κ
  get_put : ∀ s k v k', k ∈ valid → k' ∈ valid →
    get (put k v s) k' = if k' = k then v else get s k'

/-- When a cell has its turn, the turns before it have not touched it or its source. -/
structure Ordered {κ : Type} (source : κ → κ) (l : List κ) : Prop where
  ne    : ∀ k ∈ l, source k ≠ k
  later : l.Pairwise fun k k' => k' ≠ k ∧ source k' ≠ k ∧ source k' ≠ source k

section Moves

variable {σ κ α : Type} [DecidableEq κ] (cells : Cells σ κ α) (source : κ → κ) (blank : α)
  (clear : Bool)

/-- One turn: the cell gets what its source holds, and the source is blanked if `clear` says so. -/
def Cells.move (s : σ) (k : κ) : σ :=
  let s := cells.put k (cells.get s (source k)) s
  if clear then cells.put (source k) blank s else s

variable {cells source blank clear} {s : σ} {k k' : κ} {l : List κ}

theorem Cells.get_move (hk : k ∈ cells.valid) (hsource : source k ∈ cells.valid)
    (hk' : k' ∈ cells.valid) (hne : source k ≠ k) :
    cells.get (cells.move source blank clear s k) k' =
      if k' = k then cells.get s (source k)
      else if clear ∧ k' = source k then blank else cells.get s k' := by
  unfold move
  cases clear with
  | false => simp [cells.get_put _ _ _ _ hk hk']
  | true =>
    simp only [if_true, true_and, cells.get_put _ _ _ _ hsource hk', cells.get_put _ _ _ _ hk hk']
    -- the source is blanked last, but it is not the cell
    by_cases heq : k' = k
    · subst heq
      rw [if_neg (Ne.symm hne), if_pos rfl, if_pos rfl]
    · rw [if_neg heq, if_neg heq]

/-- **The moves of an ordered list**, cell by cell. -/
theorem Cells.get_moves (blank : α) (clear : Bool) (s : σ)
    (hvalid : ∀ k ∈ l, k ∈ cells.valid ∧ source k ∈ cells.valid)
    (hordered : Ordered source l) (hk' : k' ∈ cells.valid) :
    cells.get (l.foldl (cells.move source blank clear) s) k' =
      if k' ∈ l then cells.get s (source k')
      else if clear ∧ k' ∈ l.map source then blank else cells.get s k' := by
  induction l generalizing s with
  | nil => simp
  | cons k l ih =>
    obtain ⟨hk, hsource⟩ := hvalid k List.mem_cons_self
    have hne := hordered.ne k List.mem_cons_self
    obtain ⟨hfirst, hlater⟩ := List.pairwise_cons.mp hordered.later
    have hvalid' : ∀ k ∈ l, k ∈ cells.valid ∧ source k ∈ cells.valid :=
      fun q hq => hvalid q (List.mem_cons_of_mem k hq)
    have hordered' : Ordered source l :=
      ⟨fun q hq => hordered.ne q (List.mem_cons_of_mem k hq), hlater⟩
    rw [List.foldl_cons, ih _ hvalid' hordered']
    by_cases hmem : k' ∈ l
    · -- a later turn, whose source the first turn has left alone
      obtain ⟨-, hcell, hcleared⟩ := hfirst k' hmem
      rw [if_pos hmem, if_pos (List.mem_cons_of_mem k hmem),
        get_move hk hsource (hvalid' k' hmem).2 hne, if_neg hcell, if_neg fun h => hcleared h.2]
    · rw [if_neg hmem, get_move hk hsource hk' hne]
      by_cases heq : k' = k
      · -- the first turn, which no later one undoes
        subst heq
        have hkept : k' ∉ l.map source := by
          intro h
          obtain ⟨q, hq, hsame⟩ := List.mem_map.mp h
          exact (hfirst q hq).2.1 hsame
        rw [if_neg fun h => hkept h.2, if_pos rfl, if_pos List.mem_cons_self]
      · rw [if_neg heq, if_neg fun h => (List.mem_cons.mp h).elim heq hmem, List.map_cons]
        simp only [List.mem_cons]
        split_ifs <;> tauto

/-- A cell that is no destination and no source stays. -/
theorem Cells.get_moves_other (blank : α) (clear : Bool) (s : σ)
    (hvalid : ∀ k ∈ l, k ∈ cells.valid ∧ source k ∈ cells.valid) (hk' : k' ∈ cells.valid)
    (hother : ∀ k ∈ l, k' ≠ k ∧ k' ≠ source k) :
    cells.get (l.foldl (cells.move source blank clear) s) k' = cells.get s k' := by
  induction l generalizing s with
  | nil => rfl
  | cons k l ih =>
    obtain ⟨hk, hsource⟩ := hvalid k List.mem_cons_self
    obtain ⟨hcell, hcleared⟩ := hother k List.mem_cons_self
    rw [List.foldl_cons, ih _ (fun q hq => hvalid q (List.mem_cons_of_mem k hq))
      fun q hq => hother q (List.mem_cons_of_mem k hq)]
    unfold move
    split
    · rw [cells.get_put _ _ _ _ hsource hk', if_neg hcleared, cells.get_put _ _ _ _ hk hk',
        if_neg hcell]
    · rw [cells.get_put _ _ _ _ hk hk', if_neg hcell]

end Moves

end InPlace
