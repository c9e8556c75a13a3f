/-
Pruning removes exactly what is in the chain.

`sweep` is a recursion on the entries that were not looked at yet.  Here it is a loop over
one list that changes on the way: an index goes through the list, an entry that is gone is
overwritten by the last one, the list becomes shorter and the index stands still, so the
entry that was moved is the next to be looked at.  `Sweeping` is the state of that loop, and
`Sweeping.Ends` says after how many turns it stops, and where.

A turn moves either the index or the end of the list, never both, so the distance between
them is the number of turns that are left.  `ends_sweep` is the induction: what lies before
the index is settled, and what lies behind it is what `sweep` recurs on.  `prune_exact` adds
what becomes of the statuses, and that pruning again finds nothing.
-/
import AttestedLedger.Proofs.Ledger.Pool

namespace AttestedLedger.Pool

/-! ### The loop -/

/-- The list without one entry, whose place the last one takes. -/
def swapRemove {α : Type} (entries : List α) (index : Nat) : List α :=
  match entries.getLast? with
  | some last => (entries.set index last).dropLast
  | none => []

/-- A sweep under way. -/
structure Sweeping (α : Type) where
  entries : List α
  /-- Where the next entry to look at is. -/
  index : Nat
  /-- How many entries went. -/
  removed : Nat

namespace Sweeping

variable {α : Type} {gone : α → Bool}

/-- Nothing has been looked at. -/
def start (entries : List α) : Sweeping α := ⟨entries, 0, 0⟩

/-- One turn of the loop, unless the index is at the end. -/
def turn? (gone : α → Bool) (s : Sweeping α) : Option (Sweeping α) :=
  match s.entries[s.index]? with
  | some x =>
    if gone x then
      some { s with entries := swapRemove s.entries s.index, removed := s.removed + 1 }
    else some { s with index := s.index + 1 }
  | none => none

/-- The loop stops in a state after a number of turns. -/
inductive Ends (gone : α → Bool) : Sweeping α → Nat → Sweeping α → Prop
  | stop {s : Sweeping α} (h : turn? gone s = none) : Ends gone s 0 s
  | turn {s t last : Sweeping α} {turns : Nat} (h : turn? gone s = some t)
      (hrest : Ends gone t turns last) : Ends gone s (turns + 1) last

end Sweeping

/-! ### One turn -/

section Turns

variable {α : Type} {gone : α → Bool} {x : α}

theorem swapRemove_last (front : List α) (x : α) :
    swapRemove (front ++ [x]) front.length = front := by
  rw [swapRemove, List.getLast?_concat]
  dsimp only
  rw [List.set_append_right _ _ (Nat.le_refl _), Nat.sub_self, List.set_cons_zero,
    List.dropLast_concat]

/-- The last entry is the first one behind the settled ones. -/
theorem swapRemove_inside (front : List α) (x : α) {rest : List α} (hrest : rest ≠ []) :
    swapRemove (front ++ x :: rest) front.length =
      front ++ rest.getLast hrest :: rest.dropLast := by
  have hlast : (front ++ x :: rest).getLast? = some (rest.getLast hrest) := by
    rw [List.getLast?_append_of_ne_nil _ (List.cons_ne_nil x rest),
      List.getLast?_eq_some_getLast (List.cons_ne_nil x rest), List.getLast_cons hrest]
  rw [swapRemove, hlast]
  dsimp only
  rw [List.set_append_right _ _ (Nat.le_refl _), Nat.sub_self, List.set_cons_zero,
    List.dropLast_append_of_ne_nil (List.cons_ne_nil _ _), List.dropLast_cons_of_ne_nil hrest]

theorem getElem?_at_index (front : List α) (x : α) (rest : List α) :
    (front ++ x :: rest)[front.length]? = some x := by
  rw [List.getElem?_append_right (Nat.le_refl _), Nat.sub_self, List.getElem?_cons_zero]

namespace Sweeping

theorem turn?_at_end (front : List α) (removed : Nat) :
    turn? gone ⟨front, front.length, removed⟩ = none := by
  simp only [turn?, List.getElem?_eq_none (Nat.le_refl _)]

theorem turn?_of_stays (h : gone x = false) (front rest : List α) (removed : Nat) :
    turn? gone ⟨front ++ x :: rest, front.length, removed⟩ =
      some ⟨(front ++ [x]) ++ rest, (front ++ [x]).length, removed⟩ := by
  simp only [turn?, getElem?_at_index, h, Bool.false_eq_true, if_false, List.append_assoc,
    List.singleton_append, List.length_append, List.length_singleton]

theorem turn?_of_gone (h : gone x = true) (front rest : List α) (removed : Nat) :
    turn? gone ⟨front ++ x :: rest, front.length, removed⟩ =
      some ⟨swapRemove (front ++ x :: rest) front.length, front.length, removed + 1⟩ := by
  simp only [turn?, getElem?_at_index, h, if_true]

end Sweeping

end Turns

/-! ### A whole sweep -/

namespace Sweeping

variable {α : Type}

/-- **The loop ends after as many turns as there are entries behind the index**, having made of
them what `sweep` makes of them. -/
theorem ends_sweep (gone : α → Bool) (rest : List α) :
    ∀ (front : List α) (removed : Nat),
      Ends gone ⟨front ++ rest, front.length, removed⟩ rest.length
        ⟨front ++ sweep gone rest, (front ++ sweep gone rest).length,
          removed + rest.countP gone⟩ := by
  induction rest using sweep.induct gone with
  | case1 =>
      intro front removed
      rw [sweep, List.append_nil]
      exact .stop (turn?_at_end front removed)
  | case2 x hx =>
      intro front removed
      have hturn := turn?_of_gone hx front [] removed
      rw [swapRemove_last] at hturn
      have hswept : sweep gone [x] = [] := by rw [sweep, if_pos hx]
      rw [hswept, List.append_nil, List.countP_cons_of_pos hx]
      exact .turn hturn (.stop (turn?_at_end front _))
  | case3 x hx y more ih =>
      intro front removed
      have hrest : y :: more ≠ [] := List.cons_ne_nil y more
      have hturn := turn?_of_gone hx front (y :: more) removed
      rw [swapRemove_inside front x hrest] at hturn
      -- the same entries are left, in another order
      have hperm := getLast_cons_dropLast_perm (y :: more) hrest
      have hends := ih front (removed + 1)
      rw [hperm.length_eq, hperm.countP_eq gone, ← sweep_cons_of_gone hx (y :: more) hrest] at hends
      rw [List.countP_cons_of_pos hx, ← Nat.add_assoc, Nat.add_right_comm]
      exact .turn hturn hends
  | case4 x rest hx ih =>
      intro front removed
      have hstays : gone x = false := Bool.eq_false_iff.mpr hx
      rw [sweep_cons_of_stays hstays, List.countP_cons_of_neg hx,
        List.append_cons front x (sweep gone rest)]
      exact .turn (turn?_of_stays hstays front rest removed) (ih (front ++ [x]) removed)

/-- 5 and 4 come to the front one after the other, and are looked at like any other entry. -/
example : sweep (fun n => decide (n ∈ [0, 1, 4, 5])) [0, 1, 2, 3, 4, 5] = [3, 2] := by cbv

end Sweeping

/-! ### Pruning -/

variable (pool : Pool)

/-- What pruning leaves of a pool, and how many entries it takes out. -/
structure Pruned (after : Pool) (removed : Nat) : Prop where
  /-- The entries that are left are those that are not in the chain, in some order. -/
  kept : after.pending.Perm
    (pool.pending.filter fun tx => decide (pool.status? tx.digest ≠ some .mined))
  counted : removed = pool.pending.countP fun tx => decide (pool.status? tx.digest = some .mined)
  /-- The statuses that say so are forgotten, and no others are touched. -/
  statuses : ∀ digest, after.status? digest =
    if pool.status? digest = some .mined then none else pool.status? digest

/-- Pruning changed nothing. -/
structure Untouched (after : Pool) (removed : Nat) : Prop where
  pending : after.pending = pool.pending
  status : after.status.Equiv pool.status
  removed : removed = 0

theorem prunedCount_eq : pool.prunedCount = pool.pending.countP pool.isMined := by
  have hsplit : pool.pending.length = (pool.pending.filter pool.isMined).length +
      (pool.pending.filter fun tx => !pool.isMined tx).length :=
    List.length_eq_length_filter_add pool.isMined
  have hleft : pool.prune.pending.length =
      (pool.pending.filter fun tx => !pool.isMined tx).length :=
    (sweep_perm pool.isMined pool.pending).length_eq
  rw [prunedCount, List.countP_eq_length_filter]
  omega

/-- Nothing is left that is in the chain, whether it waits or not. -/
theorem status?_prune_ne_mined (digest : Digest) : pool.prune.status? digest ≠ some .mined := by
  rw [status?_prune]
  split
  · simp
  · assumption

theorem pruned : pool.Pruned pool.prune pool.prunedCount where
  kept := pool.pending_prune_perm
  counted := by
    rw [prunedCount_eq]
    refine List.countP_congr fun tx _ => ?_
    rw [isMined_iff, decide_eq_true_iff]
  statuses := pool.status?_prune

/-- A pool without transactions of the chain is left as it is. -/
theorem untouched {pool : Pool} (h : ∀ digest, pool.status? digest ≠ some .mined) :
    pool.Untouched pool.prune pool.prunedCount where
  pending := pending_prune_of_unmined h
  status := by
    refine .of_forall_getElem?_eq fun digest => ?_
    have hkept := pool.status?_prune digest
    rwa [if_neg (h digest)] at hkept
  removed := by
    rw [prunedCount_eq, List.countP_eq_zero]
    exact fun tx _ hmined => h tx.digest (isMined_iff.mp hmined)

/-- **Pruning takes exactly what is in the chain out of a pool**, whatever the pool has been
through.  The loop stops after one turn for each entry, the entries and statuses that are left
are those that do not say `mined`, and pruning again changes nothing. -/
theorem prune_exact :
    Sweeping.Ends pool.isMined (.start pool.pending) pool.pending.length
        ⟨pool.prune.pending, pool.prune.pending.length, pool.prunedCount⟩ ∧
      pool.Pruned pool.prune pool.prunedCount ∧
        pool.prune.Untouched pool.prune.prune pool.prune.prunedCount := by
  refine ⟨?_, pool.pruned, untouched pool.status?_prune_ne_mined⟩
  have hends := Sweeping.ends_sweep pool.isMined pool.pending [] 0
  rw [List.nil_append, List.nil_append, Nat.zero_add, ← prunedCount_eq] at hends
  exact hends

end AttestedLedger.Pool
