/-
A saved state survives whatever comes later.

A save writes only blocks past those already stored, so it is right only if the stored
blocks are the first of the live chain.  `Persists` says that they are, throughout the life
of a node: the live chain only grows, a save brings the archive up to it, and a restart
makes the live chain what the archive keeps.  It also names the state that the archive
keeps, which is the one last saved.

A restart is never refused on the way, and `life_restores` is the result: after any save,
what loads is the state that was last saved.  In `growingLife` the chain grows between two
saves, so the second writes behind what the first has stored.
-/
import AttestedLedger.Command.Life
import AttestedLedger.Proofs.Archive.Restore
import AttestedLedger.Proofs.Node.Upkeep

namespace AttestedLedger

namespace Archive

/-- The archive keeps a state in such a way that it can be restored. -/
structure Backs (archive : Archive) (saved : NodeState) : Prop where
  keeps : archive.Keeps saved
  storable : saved.Storable
  rebuilt : saved.chain.Rebuilt
  tidy : ∃ taken, saved.Tidy taken

theorem Backs.load {archive : Archive} {saved : NodeState} (h : archive.Backs saved) (p : Params) :
    ∃ restored, archive.load p = .ok (some restored) ∧ restored.Restores saved := by
  obtain ⟨taken, htidy⟩ := h.tidy
  exact h.keeps.load h.storable h.rebuilt htidy p

/-- The archive is behind a chain: it keeps nothing yet, or a state whose blocks are the first
of the chain's. -/
def Behind (archive : Archive) (blocks : List Block) : Option NodeState → Prop
  | none => archive = .empty
  | some saved => archive.Backs saved ∧ saved.chain.blocks <+: blocks

variable {archive : Archive} {blocks : List Block} {saved? : Option NodeState}

theorem Behind.mono (h : archive.Behind blocks saved?) {more : List Block}
    (hmore : blocks <+: more) : archive.Behind more saved? := by
  cases saved? with
  | none => exact h
  | some saved => exact ⟨h.1, h.2.trans hmore⟩

theorem Behind.holds (h : archive.Behind blocks saved?) :
    ∃ stored, archive.Holds stored ∧ stored <+: blocks := by
  cases saved? with
  | none =>
      obtain rfl : archive = .empty := h
      exact ⟨[], holds_empty, List.nil_prefix⟩
  | some saved => exact ⟨saved.chain.blocks, h.1.keeps.holds, h.2⟩

end Archive

namespace Node

/-! ### Between two saves -/

/-- The node's state is in order, its blocks give its chain, and its archive is behind the chain
with the state last saved. -/
structure Persists (node : Node) (saved? : Option NodeState) : Prop where
  sound : node.state.Sound node.claimed
  rebuilt : node.state.chain.Rebuilt
  archived : ∃ archive, node.archive = some archive ∧
    archive.Behind node.state.chain.blocks saved?

variable {node : Node} {saved? : Option NodeState}

theorem persists_fresh (identity : Identity) (peers : List Address) (p : Params) :
    (fresh identity peers p (some .empty)).Persists none where
  sound := NodeState.sound_start p
  rebuilt := Chain.rebuilt_start
  archived := ⟨.empty, rfl, rfl⟩

theorem Effect.rebuilt {event : NodeEvent} {next : Node} (heffect : Effect node event next)
    (h : node.state.chain.Rebuilt) : next.state.chain.Rebuilt := by
  rcases heffect.ledger with hsame | ⟨now, block, -, hok, happend⟩
  · rwa [hsame.chain]
  · rw [happend]
    exact h.push hok.onTip

/-- Whatever is not a save leaves the archive behind with the same state. -/
theorem Persists.step (h : node.Persists saved?) {event : NodeEvent} (hevent : event ≠ .save) :
    (node.step event).Persists saved? := by
  have heffect := step_effect node event
  obtain ⟨archive, harchive, hbehind⟩ := h.archived
  exact
    { sound := heffect.sound h.sound
      rebuilt := heffect.rebuilt h.rebuilt
      archived := ⟨archive, (heffect.archive_eq hevent).trans harchive,
        hbehind.mono heffect.blocks_grow⟩ }

/-- **A save brings the archive up to the live state.** -/
theorem Persists.save (h : node.Persists saved?) (hstorable : node.state.Storable) :
    node.save.Persists (some node.state) := by
  obtain ⟨archive, harchive, hbehind⟩ := h.archived
  obtain ⟨stored, hholds, hfirst⟩ := hbehind.holds
  obtain ⟨saved, hsave, hkeeps⟩ := hholds.save hfirst hstorable
  refine ⟨h.sound, h.rebuilt, saved, ?_, ⟨hkeeps, hstorable, h.rebuilt, _, h.sound.tidy⟩,
    List.prefix_refl _⟩
  rw [Node.save, harchive, Option.map_some, hsave]

/-- **A restart is not refused**, and makes the live state what the archive keeps. -/
theorem Persists.restart (h : node.Persists saved?) (identity : Identity) (peers : List Address)
    (p : Params) :
    ∃ next, node.restart identity peers p = .ok next ∧ next.Persists saved? ∧
      ∀ saved, saved? = some saved → next.state.Restores saved := by
  obtain ⟨archive, harchive, hbehind⟩ := h.archived
  cases saved? with
  | none =>
      obtain rfl : archive = .empty := hbehind
      refine ⟨fresh identity peers p (some .empty), ?_, persists_fresh identity peers p, nofun⟩
      rw [Node.restart, harchive]
      simp only [Option.getD_some, DataDir.storedState, Archive.load_empty]
      rfl
  | some saved =>
      obtain ⟨restored, hload, hrestores⟩ := hbehind.1.load p
      refine ⟨ofState identity peers p restored (some archive), ?_, ?_, ?_⟩
      · rw [Node.restart, harchive]
        simp only [Option.getD_some, DataDir.storedState, hload]
        rfl
      · refine ⟨NodeState.sound_of_load hload, ?_, archive, rfl, hbehind.1, ?_⟩
        · show restored.chain.Rebuilt
          rw [hrestores.chain]
          exact hbehind.1.rebuilt
        · exact hrestores.chain ▸ List.prefix_refl _
      · intro other hother
        exact Option.some.inj hother ▸ hrestores

/-! ### A whole life -/

/-- Every state that is saved in the course of the events can be stored. -/
def SavesStorable (node : Node) : List LifeEvent → Prop
  | [] => True
  | event :: rest =>
    (event = .run .save → node.state.Storable) ∧
      ∀ next, node.live event = .ok next → next.SavesStorable rest

theorem life_cons {next : Node} {event : LifeEvent} (h : node.live event = .ok next)
    (rest : List LifeEvent) : node.life (event :: rest) = next.life rest := by
  rw [life, List.foldlM_cons, h]
  rfl

theorem live_run {next : Node} {event : NodeEvent} (h : node.step event = next) :
    node.live (.run event) = .ok next :=
  congrArg Except.ok h

theorem live_save (node : Node) : node.live (.run .save) = .ok node.save := rfl

theorem SavesStorable.cons {next : Node} {event : LifeEvent} {rest : List LifeEvent}
    (hsave : event = .run .save → node.state.Storable) (hlive : node.live event = .ok next)
    (hrest : next.SavesStorable rest) : node.SavesStorable (event :: rest) := by
  refine ⟨hsave, fun other hother => ?_⟩
  rwa [← Except.ok.inj (hlive.symm.trans hother)]

theorem life_append {middle : Node} {events : List LifeEvent} (h : node.life events = .ok middle)
    (more : List LifeEvent) : node.life (events ++ more) = middle.life more := by
  rw [life] at h
  rw [life, List.foldlM_append, h]
  rfl

/-- One thing that happens: after a save the archive keeps the state there was, and otherwise
what it kept before. -/
theorem Persists.live (h : node.Persists saved?) {event : LifeEvent}
    (hstorable : event = .run .save → node.state.Storable) :
    ∃ next kept, node.live event = .ok next ∧ next.Persists kept ∧
      (event ≠ .run .save → kept = saved?) := by
  cases event with
  | restart identity peers p =>
      obtain ⟨next, hrestart, hnext, -⟩ := h.restart identity peers p
      exact ⟨next, saved?, hrestart, hnext, fun _ => rfl⟩
  | run event =>
      by_cases hsave : event = .save
      · subst hsave
        exact ⟨_, _, rfl, h.save (hstorable rfl), fun hc => absurd rfl hc⟩
      · exact ⟨_, _, rfl, h.step hsave, fun _ => rfl⟩

/-- **However long a node lives, its archive stays behind its chain**, and without a save it keeps
what it kept. -/
theorem Persists.life :
    ∀ (events : List LifeEvent) {node : Node} {saved? : Option NodeState}, node.Persists saved? →
      node.SavesStorable events →
      ∃ final kept, node.life events = .ok final ∧ final.Persists kept ∧
        (.run .save ∉ events → kept = saved?) := by
  intro events
  induction events with
  | nil => intro node saved? h _; exact ⟨node, saved?, rfl, h, fun _ => rfl⟩
  | cons event rest ih =>
      intro node saved? h hstorable
      obtain ⟨next, between, hlive, hnext, hsame⟩ := h.live hstorable.1
      obtain ⟨final, kept, hlife, hfinal, hkept⟩ := ih hnext (hstorable.2 next hlive)
      refine ⟨final, kept, (life_cons hlive rest).trans hlife, hfinal, fun hquiet => ?_⟩
      rw [List.mem_cons, not_or] at hquiet
      exact (hkept hquiet.2).trans (hsame (Ne.symm hquiet.1))

theorem SavesStorable.append {more : List LifeEvent} :
    ∀ (events : List LifeEvent) {node : Node}, node.SavesStorable (events ++ more) →
      node.SavesStorable events ∧
        ∀ middle, node.life events = .ok middle → middle.SavesStorable more := by
  intro events
  induction events with
  | nil =>
      intro node h
      refine ⟨trivial, fun middle hlife => ?_⟩
      rwa [← Except.ok.inj hlife]
  | cons event rest ih =>
      intro node h
      refine ⟨⟨h.1, fun next hlive => (ih (h.2 next hlive)).1⟩, fun middle hlife => ?_⟩
      cases hlive : node.live event with
      | error e =>
          rw [Node.life, List.foldlM_cons, hlive] at hlife
          exact absurd hlife (by simp [bind, Except.bind])
      | ok next =>
          rw [life_cons hlive] at hlife
          exact (ih (h.2 next hlive)).2 middle hlife

end Node

/-! ### States that can be saved -/

/-- Blocks within the limits of the format with distinct digests can be stored. -/
theorem Archive.storable_of_nodup {blocks : List Block}
    (hwithin : ∀ block ∈ blocks, block.WithinLimits)
    (hdistinct : (blocks.map (·.digest)).Nodup) (hfew : blocks.length < 2 ^ 64) :
    Archive.Storable blocks where
  within := hwithin
  apart := fun _ hin _ hother hsame =>
    congrArg Block.encode (List.inj_on_of_nodup_map hdistinct hin hother hsame)
  few := hfew

namespace NodeState

theorem storable_start (p : Params) : (start p).Storable where
  blocks :=
    Archive.storable_of_nodup (List.forall_mem_singleton.mpr Block.withinLimits_genesis)
      (List.nodup_singleton _) (show Chain.start.blocks.length < 2 ^ 64 by decide)
  pending := nofun

/-- A transaction goes to the end of the pool, unless nothing changes there. -/
theorem pending_submit (s : NodeState) (tx : Transaction) :
    (s.submit tx).1.pool.pending = s.pool.pending ∨
      (s.submit tx).1.pool.pending = s.pool.pending ++ [tx] := by
  rcases submit_cases s tx with ⟨-, heq⟩ | ⟨status, -, heq⟩ | ⟨-, -, heq⟩
  · exact Or.inl (by rw [heq])
  · exact Or.inl (by rw [heq])
  · exact Or.inr (by rw [heq])

theorem mem_pending_submit {s : NodeState} {tx other : Transaction} (h : other ∈ s.pool.pending) :
    other ∈ (s.submit tx).1.pool.pending := by
  rcases pending_submit s tx with hsame | hadded
  · rwa [hsame]
  · rw [hadded]
    exact List.mem_append_left _ h

theorem Storable.submit {s : NodeState} (h : s.Storable) {tx : Transaction}
    (htx : tx.WithinLimits) : (s.submit tx).1.Storable where
  blocks := by
    rw [(sameLedger_submit s tx).chain]
    exact h.blocks
  pending := by
    rcases pending_submit s tx with hsame | hadded
    · rw [hsame]
      exact h.pending
    · rw [hadded]
      exact List.forall_mem_append.mpr ⟨h.pending, List.forall_mem_singleton.mpr htx⟩

/-- A block takes nothing but waiting transactions away. -/
theorem Storable.append {s : NodeState} (h : s.Storable) {block : Block}
    (hblocks : Archive.Storable (s.append block).chain.blocks) : (s.append block).Storable where
  blocks := hblocks
  pending := fun tx htx =>
    h.pending tx (@Pool.mem_pending_of_mem_prune (s.pool.markMined block.transactions) tx htx)

/-- What was restored can be saved again. -/
theorem Storable.of_restores {saved restored : NodeState} (h : saved.Storable)
    (hrestores : restored.Restores saved) : restored.Storable where
  blocks := hrestores.chain ▸ h.blocks
  pending := fun tx htx => h.pending tx (hrestores.pending.mem_iff.mp htx)

end NodeState

namespace Node

/-! ### What loads after a save -/

/-- **After any save, what loads is the state last saved**, however the node came to it and
whatever it did afterwards, restarts included. -/
theorem life_restores (identity : Identity) (peers : List Address) (p : Params)
    {before after : List LifeEvent} (hlast : .run .save ∉ after)
    (hstorable : (fresh identity peers p (some .empty)).SavesStorable
      (before ++ .run .save :: after)) :
    ∃ saved final archive,
      (fresh identity peers p (some .empty)).life before = .ok saved ∧
      (fresh identity peers p (some .empty)).life (before ++ .run .save :: after) = .ok final ∧
      final.archive = some archive ∧
      ∀ now : Params, ∃ restored, archive.load now = .ok (some restored) ∧
        restored.Restores saved.state := by
  obtain ⟨hbefore, hrest⟩ := hstorable.append before
  obtain ⟨saved, earlier, hlife, hsaved, -⟩ :=
    (persists_fresh identity peers p).life before hbefore
  obtain ⟨hsave, hafter⟩ := hrest saved hlife
  obtain ⟨final, kept, hend, hfinal, hkept⟩ :=
    (hsaved.save (hsave rfl)).life after (hafter saved.save rfl)
  obtain rfl := hkept hlast
  obtain ⟨archive, harchive, hbehind⟩ := hfinal.archived
  refine ⟨saved, final, archive, hlife, ?_, harchive, hbehind.1.load⟩
  rw [life_append hlife, life_cons rfl]
  exact hend

end Node

/-! ### A chain that grows between two saves -/

namespace NodeState

/-- A block of another miner on genesis, with a transaction that waits beside it. -/
def grown : NodeState :=
  ((start .easiest).submit ⟨.zero, .zero, 1, 2⟩).1.append (Node.rivalBy ⟨[1]⟩)

theorem chain_grown : grown.chain = Chain.start.push (Node.rivalBy ⟨[1]⟩) :=
  ((sameLedger_submit (start .easiest) ⟨.zero, .zero, 1, 2⟩).append (Node.rivalBy ⟨[1]⟩)).chain

theorem blocks_grown : grown.chain.blocks = [.genesis, Node.rivalBy ⟨[1]⟩] := by
  rw [chain_grown]
  exact Chain.blocks_push .start (Node.rivalBy ⟨[1]⟩)

theorem rebuilt_grown : grown.chain.Rebuilt := by
  rw [chain_grown]
  exact Chain.rebuilt_start.push rfl

theorem tidy_grown : grown.Tidy [] :=
  ((sound_start .easiest).tidy.submit _).append _

theorem pending_grown : grown.pool.pending = [⟨.zero, .zero, 1, 2⟩] :=
  ((sound_start .easiest).tidy.submit _).orderly.pending_finalize_singleton
    (pending_submit_start .easiest _) (by decide +kernel)

theorem storable_grown : grown.Storable := by
  refine ((storable_start .easiest).submit (Transaction.withinLimits_zero 1 2)).append ?_
  show Archive.Storable grown.chain.blocks
  rw [blocks_grown]
  exact Archive.storable_of_nodup (by decide) (by decide +kernel) (by decide)

end NodeState

namespace Node

/-- A node is saved, accepts a block, is saved again and restarted, and is given a transaction. -/
def growingLife (identity : Identity) : List LifeEvent :=
  [.run (.submit ⟨.zero, .zero, 1, 2⟩), .run .save, .run (.offer 7 (rivalBy ⟨[1]⟩)), .run .save,
    .restart identity [] .easiest, .run (.submit ⟨.zero, .zero, 3, 4⟩)]

/-- The second save writes the block, and the restart is on it, with what was waiting. -/
theorem life_growing (identity : Identity) :
    ∃ node : Node,
      (fresh identity [] .easiest (some .empty)).life (growingLife identity) = .ok node ∧
      node.state.chain.blocks = [.genesis, rivalBy ⟨[1]⟩] ∧
      ⟨.zero, .zero, 1, 2⟩ ∈ node.state.pool.pending ∧ node.state.Storable ∧
      ∀ more, node.SavesStorable more →
        (fresh identity [] .easiest (some .empty)).SavesStorable
          (growingLife identity ++ more) := by
  obtain ⟨given, hgiven⟩ : ∃ given : Node, (fresh identity [] .easiest (some .empty)).step
      (.submit ⟨.zero, .zero, 1, 2⟩) = given := ⟨_, rfl⟩
  have hstate : given.state = ((NodeState.start .easiest).submit ⟨.zero, .zero, 1, 2⟩).1 :=
    hgiven ▸ rfl
  have hstorable : given.state.Storable :=
    hstate ▸ (NodeState.storable_start .easiest).submit (Transaction.withinLimits_zero 1 2)
  have hfirst : given.save.Persists (some given.state) :=
    (hgiven ▸ (persists_fresh _ [] .easiest).step (by simp)).save hstorable
  obtain ⟨offered, hoffered⟩ : ∃ offered : Node,
      given.save.step (.offer 7 (rivalBy ⟨[1]⟩)) = offered := ⟨_, rfl⟩
  have hgrown : offered.state = .grown := by
    have hledger : (NodeState.start .easiest).SameLedger given.save.state :=
      hstate ▸ NodeState.sameLedger_submit _ _
    rw [← hoffered, step_offer_rivalBy hledger]
    exact congrArg (NodeState.append · _) hstate
  have hsecond : offered.save.Persists (some offered.state) :=
    (hoffered ▸ hfirst.step (by simp)).save (hgrown ▸ NodeState.storable_grown)
  obtain ⟨restarted, hrestart, -, hrestores⟩ := hsecond.restart identity [] .easiest
  have hlive : offered.save.live (.restart identity [] .easiest) = .ok restarted := hrestart
  have hrestored := hrestores offered.state rfl
  refine ⟨restarted.step (.submit ⟨.zero, .zero, 3, 4⟩), ?_, ?_, ?_, ?_, fun more hmore => ?_⟩
  · rw [growingLife, life_cons (live_run hgiven), life_cons (live_save given),
      life_cons (live_run hoffered), life_cons (live_save offered), life_cons hlive]
    rfl
  · show (restarted.state.submit ⟨.zero, .zero, 3, 4⟩).1.chain.blocks = _
    rw [(NodeState.sameLedger_submit _ _).chain, hrestored.chain, hgrown, NodeState.blocks_grown]
  · refine NodeState.mem_pending_submit (hrestored.pending.mem_iff.mpr ?_)
    rw [hgrown, NodeState.pending_grown]
    exact List.mem_singleton_self _
  · exact ((hgrown ▸ NodeState.storable_grown).of_restores hrestored).submit
      (Transaction.withinLimits_zero 3 4)
  · refine .cons (by simp) (live_run hgiven) (.cons (fun _ => hstorable) (live_save given) ?_)
    refine .cons (by simp) (live_run hoffered) ?_
    refine .cons (fun _ => hgrown ▸ NodeState.storable_grown) (live_save offered) ?_
    exact .cons (by simp) hlive (.cons (by simp) rfl hmore)

/-- The chain that loads at last is longer than the one that was saved first. -/
theorem life_restores_growing :
    ∃ saved final archive,
      (fresh ⟨1, by decide, by decide⟩ [] .easiest (some .empty)).life
        (growingLife ⟨1, by decide, by decide⟩) = .ok saved ∧
      saved.state.chain.blocks = [.genesis, rivalBy ⟨[1]⟩] ∧
      ⟨.zero, .zero, 1, 2⟩ ∈ saved.state.pool.pending ∧
      (fresh ⟨1, by decide, by decide⟩ [] .easiest (some .empty)).life
        (growingLife ⟨1, by decide, by decide⟩ ++ .run .save ::
          [.restart ⟨1, by decide, by decide⟩ [] .easiest,
            .run (.submit ⟨.zero, .zero, 7, 8⟩)]) = .ok final ∧
      final.archive = some archive ∧
      ∀ now : Params, ∃ restored, archive.load now = .ok (some restored) ∧
        restored.Restores saved.state := by
  obtain ⟨node, hnode, hblocks, hwaits, hagain, hstorable⟩ :=
    life_growing ⟨1, by decide, by decide⟩
  obtain ⟨saved, final, archive, hsaved, hfinal, harchive, hload⟩ :=
    @life_restores ⟨1, by decide, by decide⟩ [] .easiest (growingLife ⟨1, by decide, by decide⟩)
      [.restart ⟨1, by decide, by decide⟩ [] .easiest, .run (.submit ⟨.zero, .zero, 7, 8⟩)]
      (by simp) (hstorable _ ⟨fun _ => hagain, fun _ _ =>
        ⟨by simp, fun _ _ => ⟨by simp, fun _ _ => trivial⟩⟩⟩)
  obtain rfl := Except.ok.inj (hnode.symm.trans hsaved)
  exact ⟨node, final, archive, hsaved, hblocks, hwaits, hfinal, harchive, hload⟩

end Node

end AttestedLedger
