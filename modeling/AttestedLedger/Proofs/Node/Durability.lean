/-
What a save keeps of the transactions a node has added.

A node acknowledges a transaction once it was added and the state saved, so whatever was
added before a save should be there after the next start.  It is, if it waits or is in the
chain: the archive gives back the pool and the chain as they were.  But a save may also come
while a finished block awaits acceptance, and the transactions that only this block holds are
in no part of the state that is saved.

`save_keeps_iff` says that nothing else is missing, however the node came to the save.
-/
import AttestedLedger.Proofs.Node.Admission
import AttestedLedger.Proofs.Node.Life

namespace AttestedLedger

/-- A restored state knows what the saved one knew. -/
theorem NodeState.Restores.knows_iff {restored saved : NodeState} (h : restored.Restores saved)
    (digest : Digest) : restored.Knows digest ↔ saved.Knows digest := by
  rw [Knows, Knows, h.chain, Pool.digests, Pool.digests, (h.pending.map _).mem_iff]

namespace Node

variable {node : Node} {saved? : Option NodeState}

theorem life_run (node : Node) (events : List NodeEvent) :
    node.life (events.map LifeEvent.run) = .ok (node.run events) := by
  induction events generalizing node with
  | nil => rfl
  | cons event rest ih =>
      rw [List.map_cons, life_cons rfl, ih]
      rfl

/-- A run without saves stores nothing until the save at its end. -/
theorem savesStorable_run_save {events : List NodeEvent} (hquiet : ∀ event ∈ events, event ≠ .save)
    (h : (node.run events).state.Storable) :
    node.SavesStorable ((events ++ [NodeEvent.save]).map .run) := by
  induction events generalizing node with
  | nil => exact ⟨fun _ => h, fun _ _ => trivial⟩
  | cons event rest ih =>
      refine ⟨fun hsave => ?_, fun next hlive => ?_⟩
      · exact absurd (LifeEvent.run.inj hsave) (hquiet event List.mem_cons_self)
      · obtain rfl := Except.ok.inj hlive
        exact ih (fun later hlater => hquiet later (List.mem_cons_of_mem event hlater)) h

/-- A save at the end of a run keeps what the run added, but for what only awaits acceptance. -/
theorem Persists.run_save (h : node.Persists saved?) {events : List NodeEvent}
    (hstorable : node.SavesStorable ((events ++ [NodeEvent.save]).map .run)) :
    ∃ archive, (node.run (events ++ [.save])).archive = some archive ∧
      ∀ p : Params, ∃ restored, archive.load p = .ok (some restored) ∧
        ∀ tx ∈ node.additions events,
          restored.Knows tx.digest ↔ ¬(node.run events).OnlyAwaiting tx.digest := by
  rw [List.map_append] at hstorable
  obtain ⟨hduring, hrest⟩ := hstorable.append _
  obtain ⟨final, kept, hlife, hfinal, -⟩ := h.life _ hduring
  obtain ⟨hsave, -⟩ := hrest final hlife
  obtain rfl := Except.ok.inj ((life_run node events).symm.trans hlife)
  obtain ⟨archive, harchive, hbehind⟩ := (hfinal.save (hsave rfl)).archived
  rw [run_concat]
  refine ⟨archive, harchive, fun p => ?_⟩
  obtain ⟨restored, hload, hrestores⟩ := hbehind.1.load p
  exact ⟨restored, hload, fun tx htx =>
    (hrestores.knows_iff tx.digest).trans (knows_iff_of_added h.sound events htx)⟩

/-- **A save keeps what a node has added**, in the pool or in the chain that the archive gives back,
but for what only awaits acceptance at that moment, however the node came to be. -/
theorem save_keeps_iff (identity : Identity) (peers : List Address) (p : Params)
    {earlier : List LifeEvent} {events : List NodeEvent}
    (hstorable : (fresh identity peers p (some .empty)).SavesStorable
      (earlier ++ (events ++ [NodeEvent.save]).map .run)) :
    ∃ node archive, (fresh identity peers p (some .empty)).life earlier = .ok node ∧
      (node.run (events ++ [.save])).archive = some archive ∧
      ∀ now : Params, ∃ restored, archive.load now = .ok (some restored) ∧
        ∀ tx ∈ node.additions events,
          restored.Knows tx.digest ↔ ¬(node.run events).OnlyAwaiting tx.digest := by
  obtain ⟨hearlier, hrest⟩ := hstorable.append earlier
  obtain ⟨node, kept, hlife, hnode, -⟩ := (persists_fresh identity peers p).life earlier hearlier
  obtain ⟨archive, harchive, hload⟩ := hnode.run_save (hrest node hlife)
  exact ⟨node, archive, hlife, harchive, hload⟩

theorem save_keeps_iff_submitted :
    ∃ node archive, (fresh ⟨1, by decide, by decide⟩ [] {} (some .empty)).life
        [.run (.submit ⟨.zero, .zero, 1, 2⟩)] = .ok node ∧
      (node.run ([.submit ⟨.zero, .zero, 3, 4⟩] ++ [.save])).archive = some archive ∧
      ∀ now : Params, ∃ restored, archive.load now = .ok (some restored) ∧
        ∀ tx ∈ node.additions [.submit ⟨.zero, .zero, 3, 4⟩],
          restored.Knows tx.digest ↔
            ¬(node.run [.submit ⟨.zero, .zero, 3, 4⟩]).OnlyAwaiting tx.digest := by
  refine save_keeps_iff _ _ _ ?_
  refine ⟨by simp, fun _ h => ?_⟩
  obtain rfl := Except.ok.inj h
  have hquiet : ∀ event ∈ [NodeEvent.submit ⟨.zero, .zero, 3, 4⟩], event ≠ .save := by simp
  have htwo := ((NodeState.storable_start {}).submit (Transaction.withinLimits_zero 1 2)).submit
    (Transaction.withinLimits_zero 3 4)
  exact savesStorable_run_save hquiet htwo

/-! ### What a save misses -/

/-- A node that has mined a transaction alone has nothing left that would not fit the archive. -/
theorem storable_solo (archive : Option Archive) (tx : Transaction) :
    ((fresh ⟨1, by decide, by decide⟩ [] .easiest archive).run (finishEvents tx)).state.Storable := by
  obtain ⟨settling, hrun, hchain, -⟩ :=
    mines_solo ⟨1, by decide, by decide⟩ [] .easiest archive Params.admits_easiest tx 3 .zero 4
  have hgap := onlyAwaiting_solo archive tx
  have haccounts := accounts_run_fresh ⟨1, by decide, by decide⟩ [] .easiest archive
    (finishEvents tx)
  rw [finishEvents, run_concat] at hgap haccounts ⊢
  rw [hrun] at hgap haccounts ⊢
  constructor
  · rw [(sameLedger_mine settling (.proceed 4)).chain, hchain]
    exact (NodeState.storable_start {}).blocks
  · intro other hother
    have hin := Pool.digest_mem_digests hother
    have hsame : other.digest = tx.digest := by
      simpa [submissions, soloEvents, NodeEvent.submission?] using haccounts.pending _ hin
    exact absurd (Or.inl (hsame ▸ hin)) hgap.2

/-- The node that mined a transaction alone is saved before the block is offered. -/
theorem save_loses_solo :
    ∃ archive restored, ((fresh ⟨1, by decide, by decide⟩ [] .easiest (some .empty)).run
        (finishEvents ⟨.zero, .zero, 1, 2⟩ ++ [.save])).archive = some archive ∧
      archive.load .easiest = .ok (some restored) ∧
      ∃ tx ∈ (fresh ⟨1, by decide, by decide⟩ [] .easiest (some .empty)).additions
          (finishEvents ⟨.zero, .zero, 1, 2⟩), ¬restored.Knows tx.digest := by
  have hgap := onlyAwaiting_solo (some .empty) ⟨.zero, .zero, 1, 2⟩
  have hstorable : (fresh ⟨1, by decide, by decide⟩ [] .easiest (some .empty)).SavesStorable
      ((finishEvents ⟨.zero, .zero, 1, 2⟩ ++ [NodeEvent.save]).map .run) :=
    savesStorable_run_save (by simp [finishEvents, soloEvents]) (storable_solo (some .empty) _)
  obtain ⟨archive, harchive, hload⟩ := (persists_fresh _ [] .easiest).run_save hstorable
  obtain ⟨restored, hrestored, hknows⟩ := hload .easiest
  obtain ⟨hadded, -⟩ := (onlyAwaiting_iff _ _ _ _ _ _).mp hgap
  obtain ⟨tx, htx, hdigest⟩ := List.mem_map.mp hadded
  rw [← hdigest] at hgap
  exact ⟨archive, restored, harchive, hrestored, tx, htx,
    fun hknown => (hknows tx htx).mp hknown hgap⟩

end Node

end AttestedLedger
