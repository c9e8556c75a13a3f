/-
The search tries one nonce after another.

`Search.round` says what a round ends with, and not which nonces it digested on the way.  So
the round is run a second time with a record (`recordFrom`): one `Trial` for each digest
computed, with the nonce, whether the target admitted the digest, and the answer to the
question asked after it, if one was.  Leaving the record out gives the round back
(`record_snd`), so the record is that of the round itself.

`Tried` says what the record and the end of a round have to do with each other.  It is carried
through the round from its last trial to its first (`Tried.cons`), with the number of nonces
that failed before as a parameter, because the questions are counted from the start of the
round.  Rounds one after another come next: as long as nothing was found, a round leaves the
block with the first nonce it did not try, so the records of several rounds are one stretch of
consecutive nonces (`consecutive_hashed`).
-/
import AttestedLedger.Proofs.Mining.Search
import Mathlib.Algebra.Group.Nat.Defs
import Mathlib.Algebra.GroupWithZero.Nat
import Mathlib.Data.List.Nodup

namespace AttestedLedger

/-! ### Nonces further on -/

namespace Block

/-- The block with the nonce that many places on, wrapping past the largest. -/
def ahead (block : Block) (count : Nat) : Block :=
  { block with nonce := block.nonce + UInt64.ofNat count }

@[simp] theorem ahead_zero (block : Block) : block.ahead 0 = block := by
  have hnonce : block.nonce + UInt64.ofNat 0 = block.nonce := UInt64.add_zero block.nonce
  rw [ahead, hnonce]

theorem ahead_ahead (block : Block) (m n : Nat) :
    (block.ahead m).ahead n = block.ahead (m + n) := by
  rw [ahead, ahead, ahead, UInt64.ofNat_add, UInt64.add_assoc]

theorem nextNonce_ahead (block : Block) (count : Nat) :
    block.nextNonce.ahead count = block.ahead (count + 1) := by
  rw [Nat.add_comm, ← ahead_ahead]
  rfl

/-- The nonce of a block and those after it. -/
def noncesFrom (block : Block) (count : Nat) : List UInt64 :=
  (List.range count).map fun place => (block.ahead place).nonce

@[simp] theorem length_noncesFrom (block : Block) (count : Nat) :
    (block.noncesFrom count).length = count := by
  rw [noncesFrom, List.length_map, List.length_range]

theorem noncesFrom_add (block : Block) (m n : Nat) :
    block.noncesFrom (m + n) = block.noncesFrom m ++ (block.ahead m).noncesFrom n := by
  rw [noncesFrom, noncesFrom, noncesFrom, List.range_add, List.map_append, List.map_map]
  refine congrArg (_ ++ ·) (List.map_congr_left fun place _ => ?_)
  rw [Function.comp_apply, ahead_ahead]

/-- Less than a whole turn of nonces are all different. -/
theorem nodup_noncesFrom (block : Block) {count : Nat} (h : count < UInt64.size) :
    (block.noncesFrom count).Nodup := by
  refine List.Nodup.map_on ?_ List.nodup_range
  intro m hm n hn hsame
  have hword := (UInt64.add_right_inj block.nonce).mp hsame
  rw [← UInt64.toNat_inj, UInt64.toNat_ofNat_of_lt' (Nat.lt_trans (List.mem_range.mp hm) h),
    UInt64.toNat_ofNat_of_lt' (Nat.lt_trans (List.mem_range.mp hn) h)] at hword
  exact hword

end Block

namespace Search

/-! ### Rounds with a record -/

/-- One nonce that a round tried. -/
structure Trial where
  nonce : UInt64
  /-- Whether the digest met the target. -/
  admitted : Bool
  /-- The answer to the question asked after it, if one was asked. -/
  answer : Option Bool
  deriving DecidableEq

/-- Whether the round goes on after the trial. -/
def Trial.goesOn (trial : Trial) : Bool := !trial.admitted && trial.answer != some true

/-- Trials that all failed are counted as failures one and all. -/
theorem countP_failed {trials : List Trial} (h : ∀ trial ∈ trials, trial.admitted = false) :
    (trials.countP fun trial => !trial.admitted) = trials.length :=
  List.countP_eq_length.mpr fun trial htrial => by rw [h trial htrial, Bool.not_false]

/-- `roundFrom` with a record of its trials. -/
def recordFrom (interval : Nat) (stop : Nat → Bool) (tried : Nat) :
    Nat → Search → List Trial × RoundOutcome × Search
  | 0, search => ([], .exhausted, search)
  | left + 1, search =>
    let digest := search.block.workDigest
    let counted := { search with attempts := search.attempts + 1 }
    if (Target.ofDifficulty search.block.difficulty).admits digest then
      ([⟨search.block.nonce, true, none⟩], .found digest, counted)
    else
      let moved := { counted with block := search.block.nextNonce }
      if (tried + 1) % interval = 0 then
        let asked := { moved with polls := moved.polls + 1 }
        if stop asked.polls then ([⟨search.block.nonce, false, some true⟩], .interrupted, asked)
        else
          let rest := recordFrom interval stop (tried + 1) left asked
          (⟨search.block.nonce, false, some false⟩ :: rest.1, rest.2)
      else
        let rest := recordFrom interval stop (tried + 1) left moved
        (⟨search.block.nonce, false, none⟩ :: rest.1, rest.2)

/-- **The record is of the round**: without it, the round is left. -/
theorem recordFrom_snd (interval : Nat) (stop : Nat → Bool) :
    ∀ (left tried : Nat) (search : Search),
      (recordFrom interval stop tried left search).2 =
        roundFrom interval stop tried left search := by
  intro left
  induction left with
  | zero => intro tried search; rfl
  | succ left ih =>
      intro tried search
      rw [recordFrom, roundFrom]
      dsimp only
      split
      · rfl
      · split
        · split
          · rfl
          · exact ih (tried + 1) _
        · exact ih (tried + 1) _

/-! ### What a record says -/

/-- The trial of a block as a numbered one of its round.  A question is due after a failure
whose number is a multiple of the interval. -/
def trialOf (interval : Nat) (stop : Nat → Bool) (block : Block) (number : Nat) : Trial where
  nonce := block.nonce
  admitted := block.hasWork
  answer :=
    if block.hasWork = false ∧ number % interval = 0 then some (stop (number / interval)) else none

section trialOf

variable {interval : Nat} {stop : Nat → Bool} {block : Block} {number : Nat}

theorem trialOf_admitted (h : block.hasWork = true) :
    trialOf interval stop block number = ⟨block.nonce, true, none⟩ := by
  rw [trialOf, h, if_neg (by simp)]

theorem trialOf_asked (h : block.hasWork = false) (hdue : number % interval = 0) :
    trialOf interval stop block number =
      ⟨block.nonce, false, some (stop (number / interval))⟩ := by
  rw [trialOf, h, if_pos ⟨rfl, hdue⟩]

theorem trialOf_unasked (h : block.hasWork = false) (hdue : number % interval ≠ 0) :
    trialOf interval stop block number = ⟨block.nonce, false, none⟩ := by
  rw [trialOf, h, if_neg fun hboth => hdue hboth.2]

end trialOf

/-- What the record of a round, or of the rest of one in which `tried` nonces have failed, has to
do with its end. -/
structure Tried (interval : Nat) (stop : Nat → Bool) (tried left : Nat) (before : Search)
    (trials : List Trial) (outcome : RoundOutcome) (after : Search) : Prop where
  /-- One nonce after another is tried, and asked after when a question is due. -/
  consecutive : trials = (List.range trials.length).map fun place =>
    trialOf interval stop (before.block.ahead place) (tried + place + 1)
  within : trials.length ≤ left
  /-- The first success and the first yes end the round. -/
  prompt : ∀ trial ∈ trials.dropLast, trial.goesOn = true
  found : (∃ digest, outcome = .found digest) ↔ ∃ trial ∈ trials, trial.admitted = true
  /-- What was found is the last nonce tried, and the work is done. -/
  winner : ∀ digest, outcome = .found digest →
    trials.getLast?.map (·.nonce) = some after.block.nonce ∧
      digest = after.block.workDigest ∧ after.block.hasWork = true
  exhausted : outcome = .exhausted ↔
    trials.length = left ∧ ∀ trial ∈ trials, trial.goesOn = true
  interrupted : outcome = .interrupted ↔ ∃ trial ∈ trials, trial.answer = some true
  /-- The nonce has moved on by one for each failure, and nothing else has changed. -/
  block : after.block = before.block.ahead (trials.countP fun trial => !trial.admitted)
  attempts : after.attempts = before.attempts + trials.length
  polls : after.polls = before.polls + trials.countP fun trial => trial.answer.isSome

namespace Tried

variable {interval : Nat} {stop : Nat → Bool} {tried left : Nat} {before moved after : Search}
  {trials : List Trial} {outcome : RoundOutcome}

theorem goesOn_iff {trial : Trial} :
    trial.goesOn = true ↔ trial.admitted = false ∧ trial.answer ≠ some true := by
  rw [Trial.goesOn, Bool.and_eq_true, Bool.not_eq_true', bne_iff_ne]

/-! The three ways for a round to end. -/

theorem exhaust : Tried interval stop tried 0 before [] .exhausted before where
  consecutive := rfl
  within := Nat.le_refl 0
  prompt := by simp
  found := by simp
  winner := by simp
  exhausted := by simp
  interrupted := by simp
  block := (Block.ahead_zero before.block).symm
  attempts := rfl
  polls := rfl

theorem find (hwork : before.block.hasWork = true) :
    Tried interval stop tried (left + 1) before [⟨before.block.nonce, true, none⟩]
      (.found before.block.workDigest) { before with attempts := before.attempts + 1 } where
  consecutive := by
    show _ = [trialOf interval stop (before.block.ahead 0) (tried + 0 + 1)]
    rw [Block.ahead_zero, trialOf_admitted hwork]
  within := Nat.succ_le_succ (Nat.zero_le left)
  prompt := by simp
  found := by simp
  winner := by
    rintro digest hfound
    exact ⟨rfl, (RoundOutcome.found.inj hfound).symm, hwork⟩
  exhausted := by simp [Trial.goesOn]
  interrupted := by simp
  block := (Block.ahead_zero before.block).symm
  attempts := rfl
  polls := rfl

theorem interrupt (hwork : before.block.hasWork = false) (hdue : (tried + 1) % interval = 0)
    (hyes : stop ((tried + 1) / interval) = true) :
    Tried interval stop tried (left + 1) before [⟨before.block.nonce, false, some true⟩]
      .interrupted ⟨before.block.nextNonce, before.attempts + 1, before.polls + 1⟩ where
  consecutive := by
    show _ = [trialOf interval stop (before.block.ahead 0) (tried + 0 + 1)]
    rw [Block.ahead_zero, trialOf_asked hwork hdue, Nat.add_zero, hyes]
  within := Nat.succ_le_succ (Nat.zero_le left)
  prompt := by simp
  found := by simp
  winner := by simp
  exhausted := by simp [Trial.goesOn]
  interrupted := by simp
  block := rfl
  attempts := rfl
  polls := rfl

/-- **A trial in front of a record.** -/
theorem cons {trial : Trial} (h : Tried interval stop (tried + 1) left moved trials outcome after)
    (htrial : trial = trialOf interval stop before.block (tried + 1))
    (hgoes : trial.goesOn = true)
    (hblock : moved.block = before.block.nextNonce)
    (hattempts : moved.attempts = before.attempts + 1)
    (hpolls : moved.polls = before.polls + if trial.answer.isSome then 1 else 0) :
    Tried interval stop tried (left + 1) before (trial :: trials) outcome after where
  consecutive := by
    rw [List.length_cons, List.range_succ_eq_map, List.map_cons, List.map_map, Block.ahead_zero,
      Nat.add_zero, ← htrial]
    refine congrArg (trial :: ·) (h.consecutive.trans (List.map_congr_left fun place _ => ?_))
    rw [hblock, Block.nextNonce_ahead, Nat.add_right_comm tried 1 place]
    rfl
  within := Nat.succ_le_succ h.within
  prompt := by
    intro earlier hearlier
    cases trials with
    | nil => exact absurd hearlier List.not_mem_nil
    | cons second rest =>
        rcases List.mem_cons.mp hearlier with rfl | hlater
        · exact hgoes
        · exact h.prompt earlier hlater
  found := by
    rw [h.found, List.exists_mem_cons_iff, (goesOn_iff.mp hgoes).1]
    simp only [Bool.false_eq_true, false_or]
  winner := by
    intro digest hfound
    obtain ⟨hlast, hwinner⟩ := h.winner digest hfound
    refine ⟨?_, hwinner⟩
    cases trials with
    | nil => exact absurd hlast (by simp)
    | cons second rest => rwa [List.getLast?_cons_cons]
  exhausted := by
    rw [h.exhausted, List.length_cons, Nat.succ_inj, List.forall_mem_cons]
    exact and_congr_right fun _ => (and_iff_right hgoes).symm
  interrupted := by
    rw [h.interrupted, List.exists_mem_cons_iff]
    exact (or_iff_right (goesOn_iff.mp hgoes).2).symm
  block := by
    rw [h.block, hblock, Block.nextNonce_ahead, List.countP_cons, (goesOn_iff.mp hgoes).1]
    rfl
  attempts := by rw [h.attempts, hattempts, List.length_cons, Nat.add_assoc, Nat.add_comm 1]
  polls := by rw [h.polls, hpolls, List.countP_cons, Nat.add_assoc, Nat.add_comm (ite _ _ _)]

/-- A round that fails throughout moves the nonce on by all it may try. -/
theorem block_of_exhausted (h : Tried interval stop tried left before trials outcome after)
    (hexhausted : outcome = .exhausted) : after.block = before.block.ahead left := by
  obtain ⟨hlength, hgoes⟩ := h.exhausted.mp hexhausted
  have hfailed : ∀ trial ∈ trials, trial.admitted = false :=
    fun trial htrial => (goesOn_iff.mp (hgoes trial htrial)).1
  rw [h.block, countP_failed hfailed, hlength]

end Tried

/-- The next question is the next one counted from the start of the round. -/
theorem question_number (tried interval : Nat) :
    (tried + 1) / interval =
      tried / interval + if (tried + 1) % interval = 0 then 1 else 0 := by
  simp only [Nat.succ_div, Nat.dvd_iff_mod_eq_zero]

/-- **Every round is as its record says.** -/
theorem tried_recordFrom (interval : Nat) (stop : Nat → Bool) :
    ∀ (left tried : Nat) (search : Search), search.polls = tried / interval →
      Tried interval stop tried left search (recordFrom interval stop tried left search).1
        (recordFrom interval stop tried left search).2.1
        (recordFrom interval stop tried left search).2.2 := by
  intro left
  induction left with
  | zero => intro tried search _; exact .exhaust
  | succ left ih =>
      intro tried search hpolls
      -- the number of the next question is what ties the count of questions to that of trials
      have hnumber := question_number tried interval
      rw [← hpolls] at hnumber
      rw [recordFrom]
      dsimp only
      split
      · rename_i hwork
        exact .find hwork
      · rename_i hwork
        have hfails : search.block.hasWork = false := eq_false_of_ne_true hwork
        split
        · rename_i hdue
          rw [if_pos hdue] at hnumber
          split
          · rename_i hyes
            exact .interrupt hfails hdue (hnumber ▸ hyes)
          · rename_i hno
            have htrial : trialOf interval stop search.block (tried + 1) =
                ⟨search.block.nonce, false, some false⟩ := by
              rw [trialOf_asked hfails hdue, hnumber, eq_false_of_ne_true hno]
            exact (ih (tried + 1) _ hnumber.symm).cons htrial.symm rfl rfl rfl rfl
        · rename_i hdue
          rw [if_neg hdue] at hnumber
          have hrest := ih (tried + 1) ⟨search.block.nextNonce, search.attempts + 1, search.polls⟩
            hnumber.symm
          exact hrest.cons (trialOf_unasked hfails hdue).symm rfl rfl rfl rfl

/-! ### A round as asked for -/

/-- What a round is asked to do. -/
structure RoundRequest where
  nonces : Nat
  interval : Nat
  /-- The answers to its questions, counted from one. -/
  stop : Nat → Bool

/-- A round that does what is asked. -/
def conduct (search : Search) (request : RoundRequest) : RoundOutcome × Search :=
  search.round request.nonces request.interval request.stop

/-- The same with a record of its trials. -/
def record (search : Search) (request : RoundRequest) : List Trial × RoundOutcome × Search :=
  recordFrom (max request.interval 1) request.stop 0 request.nonces { search with polls := 0 }

theorem record_snd (search : Search) (request : RoundRequest) :
    (search.record request).2 = search.conduct request :=
  recordFrom_snd _ _ _ _ _

/-- What the record of a round has to do with its end. -/
def Accounted (search : Search) (request : RoundRequest) : Prop :=
  Tried (max request.interval 1) request.stop 0 request.nonces { search with polls := 0 }
    (search.record request).1 (search.conduct request).1 (search.conduct request).2

theorem accounted (search : Search) (request : RoundRequest) : search.Accounted request := by
  have htried := tried_recordFrom (max request.interval 1) request.stop request.nonces 0
    { search with polls := 0 } (Nat.zero_div _).symm
  rw [recordFrom_snd] at htried
  exact htried

/-! ### Rounds one after another -/

/-- The search after some rounds on one block. -/
def after (search : Search) (requests : List RoundRequest) : Search :=
  requests.foldl (fun search request => (search.conduct request).2) search

/-- The trials of some rounds on one block. -/
def trials : List RoundRequest → Search → List Trial
  | [], _ => []
  | request :: rest, search =>
    (search.record request).1 ++ trials rest (search.conduct request).2

/-- Trials through the first success. -/
def throughSuccess : List Trial → List Trial
  | [] => []
  | trial :: rest => if trial.admitted then [trial] else trial :: throughSuccess rest

theorem length_throughSuccess_le (trials : List Trial) :
    (throughSuccess trials).length ≤ trials.length := by
  induction trials with
  | nil => exact Nat.le_refl 0
  | cons trial rest ih =>
      rw [throughSuccess]
      split
      · exact Nat.succ_le_succ (Nat.zero_le _)
      · exact Nat.succ_le_succ ih

/-- What comes after a success is left out. -/
theorem throughSuccess_append_of_admitted {front : List Trial} (back : List Trial)
    (h : ∃ trial ∈ front, trial.admitted = true) :
    throughSuccess (front ++ back) = throughSuccess front := by
  induction front with
  | nil => exact absurd h (by simp)
  | cons trial front ih =>
      rw [List.cons_append, throughSuccess, throughSuccess]
      split
      · rfl
      · rename_i hfails
        rw [List.exists_mem_cons_iff] at h
        rw [ih (h.resolve_left hfails)]

theorem throughSuccess_append_of_failed {front : List Trial} (back : List Trial)
    (h : ∀ trial ∈ front, trial.admitted = false) :
    throughSuccess (front ++ back) = front ++ throughSuccess back := by
  induction front with
  | nil => rfl
  | cons trial front ih =>
      rw [List.forall_mem_cons] at h
      rw [List.cons_append, throughSuccess, if_neg (by simp [h.1]), ih h.2, List.cons_append]

/-- A round has no trial after its success. -/
theorem throughSuccess_of_prompt {trials : List Trial}
    (h : ∀ trial ∈ trials.dropLast, trial.goesOn = true) : throughSuccess trials = trials := by
  rcases List.eq_nil_or_concat trials with rfl | ⟨front, last, rfl⟩
  · rfl
  · rw [List.concat_eq_append, List.dropLast_concat] at h
    have hfailed : ∀ trial ∈ front, trial.admitted = false :=
      fun trial htrial => (Tried.goesOn_iff.mp (h trial htrial)).1
    rw [List.concat_eq_append, throughSuccess_append_of_failed _ hfailed, throughSuccess]
    split <;> rfl

/-- The nonces digested in some rounds until one was found. -/
def hashed (search : Search) (requests : List RoundRequest) : List UInt64 :=
  (throughSuccess (trials requests search)).map (·.nonce)

/-- The nonces of a round are consecutive. -/
theorem Accounted.nonces {search : Search} {request : RoundRequest} (h : search.Accounted request) :
    (search.record request).1.map (·.nonce) =
      search.block.noncesFrom (search.record request).1.length := by
  have hconsecutive := congrArg (List.map (·.nonce)) h.consecutive
  rw [List.map_map] at hconsecutive
  exact hconsecutive

/-- **Until one is found, the nonces of rounds one after another are consecutive.** -/
theorem consecutive_hashed :
    ∀ (requests : List RoundRequest) (search : Search),
      search.hashed requests = search.block.noncesFrom (search.hashed requests).length := by
  intro requests
  induction requests with
  | nil => intro search; rfl
  | cons request rest ih =>
      intro search
      have haccounted := search.accounted request
      -- after a success nothing more counts; else the next round goes on where this one stopped
      by_cases hfound : ∃ trial ∈ (search.record request).1, trial.admitted = true
      · rw [hashed, trials, throughSuccess_append_of_admitted _ hfound,
          throughSuccess_of_prompt haccounted.prompt, haccounted.nonces, Block.length_noncesFrom]
      · have hfailed : ∀ trial ∈ (search.record request).1, trial.admitted = false :=
          fun trial htrial => eq_false_of_ne_true fun hwork => hfound ⟨trial, htrial, hwork⟩
        have hnext : (search.conduct request).2.block =
            search.block.ahead (search.record request).1.length := by
          rw [haccounted.block, countP_failed hfailed]
        have hsplit : search.hashed (request :: rest) =
            (search.record request).1.map (·.nonce) ++ (search.conduct request).2.hashed rest := by
          rw [hashed, trials, throughSuccess_append_of_failed _ hfailed, List.map_append]
          rfl
        rw [hsplit, ih, haccounted.nonces, hnext, ← Block.noncesFrom_add, Block.length_noncesFrom]

/-- Rounds one after another count every digest they compute. -/
theorem attempts_after :
    ∀ (requests : List RoundRequest) (search : Search),
      (search.after requests).attempts = search.attempts + (trials requests search).length := by
  intro requests
  induction requests with
  | nil => intro search; rfl
  | cons request rest ih =>
      intro search
      have hattempts := (search.accounted request).attempts
      calc (search.after (request :: rest)).attempts
          = (search.conduct request).2.attempts + (trials rest (search.conduct request).2).length :=
            ih (search.conduct request).2
        _ = search.attempts + (trials (request :: rest) search).length := by
            rw [hattempts, trials, List.length_append, Nat.add_assoc]

/-- Rounds one after another compute no more digests than they may. -/
theorem length_trials_le :
    ∀ (requests : List RoundRequest) (search : Search),
      (trials requests search).length ≤ (requests.map (·.nonces)).sum := by
  intro requests
  induction requests with
  | nil => intro search; exact Nat.le_refl 0
  | cons request rest ih =>
      intro search
      rw [trials, List.length_append, List.map_cons, List.sum_cons]
      exact Nat.add_le_add (search.accounted request).within (ih _)

/-- Rounds one after another move the nonce on by one for each failure, and change nothing
else. -/
theorem block_after :
    ∀ (requests : List RoundRequest) (search : Search),
      (search.after requests).block =
        search.block.ahead ((trials requests search).countP fun trial => !trial.admitted) := by
  intro requests
  induction requests with
  | nil => intro search; exact (Block.ahead_zero search.block).symm
  | cons request rest ih =>
      intro search
      have hblock := (search.accounted request).block
      calc (search.after (request :: rest)).block
          = (search.conduct request).2.block.ahead
              ((trials rest (search.conduct request).2).countP fun trial => !trial.admitted) :=
            ih (search.conduct request).2
        _ = search.block.ahead
              ((trials (request :: rest) search).countP fun trial => !trial.admitted) := by
            rw [hblock, Block.ahead_ahead, trials, List.countP_append]

/-! ### Two rounds as one -/

/-- A round and, unless it found a nonce, another. -/
def inTurn (first : RoundOutcome × Search) (second : Search → RoundOutcome × Search) :
    RoundOutcome × Search :=
  match first.1 with
  | .found _ => first
  | _ => second first.2

/-- The same end but for the number of questions. -/
structure Alike (one other : RoundOutcome × Search) : Prop where
  outcome : one.1 = other.1
  block : one.2.block = other.2.block
  attempts : one.2.attempts = other.2.attempts

theorem Alike.symm {one other : RoundOutcome × Search} (h : Alike one other) : Alike other one :=
  ⟨h.outcome.symm, h.block.symm, h.attempts.symm⟩

theorem Alike.trans {one other third : RoundOutcome × Search} (h : Alike one other)
    (h' : Alike other third) : Alike one third :=
  ⟨h.outcome.trans h'.outcome, h.block.trans h'.block, h.attempts.trans h'.attempts⟩

/-- A round that asks nothing. -/
def sweep : Nat → Search → RoundOutcome × Search
  | 0, search => (.exhausted, search)
  | left + 1, search =>
    let counted := { search with attempts := search.attempts + 1 }
    if search.block.hasWork then (.found search.block.workDigest, counted)
    else sweep left { counted with block := search.block.nextNonce }

theorem sweep_add (n : Nat) :
    ∀ (m : Nat) (search : Search), sweep (m + n) search = inTurn (sweep m search) (sweep n) := by
  intro m
  induction m with
  | zero => intro search; rw [Nat.zero_add]; rfl
  | succ m ih =>
      intro search
      rw [Nat.succ_add, sweep, sweep]
      dsimp only
      split
      · rfl
      · exact ih _

/-- When the answer is always no, it does not matter what is asked. -/
theorem alike_sweep {interval : Nat} {stop : Nat → Bool} (hno : ∀ question, stop question = false) :
    ∀ (left tried : Nat) {search other : Search}, search.block = other.block →
      search.attempts = other.attempts →
        Alike (roundFrom interval stop tried left search) (sweep left other) := by
  intro left
  induction left with
  | zero => intro tried search other hblock hattempts; exact ⟨rfl, hblock, hattempts⟩
  | succ left ih =>
      intro tried search other hblock hattempts
      have hnext : search.block.nextNonce = other.block.nextNonce := congrArg _ hblock
      have hmore : search.attempts + 1 = other.attempts + 1 := congrArg _ hattempts
      rw [roundFrom, sweep, ← hblock]
      dsimp only
      split
      · rename_i hwork
        rw [if_pos (show search.block.hasWork = true from hwork)]
        exact ⟨rfl, rfl, hmore⟩
      · rename_i hwork
        rw [if_neg (show ¬search.block.hasWork = true from hwork)]
        split
        · rw [if_neg (by rw [hno]; exact Bool.false_ne_true)]
          exact ih (tried + 1) rfl hmore
        · exact ih (tried + 1) rfl hmore

/-- **Rounds that are not interrupted add up.** -/
theorem alike_inTurn (search : Search) (m n i j k : Nat) {no₁ no₂ no : Nat → Bool}
    (h₁ : ∀ question, no₁ question = false) (h₂ : ∀ question, no₂ question = false)
    (h : ∀ question, no question = false) :
    Alike (search.round (m + n) k no)
      (inTurn (search.round m i no₁) fun next => next.round n j no₂) := by
  have hwhole : Alike (search.round (m + n) k no) (sweep (m + n) search) :=
    alike_sweep h _ _ rfl rfl
  have hfirst : Alike (search.round m i no₁) (sweep m search) := alike_sweep h₁ _ _ rfl rfl
  have hsecond : Alike ((search.round m i no₁).2.round n j no₂) (sweep n (sweep m search).2) :=
    alike_sweep h₂ _ _ hfirst.block hfirst.attempts
  rw [sweep_add] at hwhole
  refine hwhole.trans ?_
  -- both take the second round or both do not, since the first ends alike
  rw [inTurn, inTurn, hfirst.outcome]
  cases (sweep m search).1 with
  | found digest => exact hfirst.symm
  | exhausted => exact hsecond.symm
  | interrupted => exact hsecond.symm

/-! ### The whole search -/

/-- What rounds one after another on one block have done. -/
structure Thorough (search : Search) (requests : List RoundRequest) : Prop where
  /-- Until a nonce is found, none is left out. -/
  consecutive : search.hashed requests =
    search.block.noncesFrom (search.hashed requests).length
  /-- Until a nonce is found, none is tried twice. -/
  once : (search.hashed requests).Nodup
  attempts : (search.after requests).attempts = search.attempts + (trials requests search).length
  /-- The nonce has moved on by one for each failure, and nothing else has changed. -/
  block : (search.after requests).block =
    search.block.ahead ((trials requests search).countP fun trial => !trial.admitted)
  /-- Each round is as its record says, and the record is of that round. -/
  rounds : ∀ front request rest, requests = front ++ request :: rest →
    ((search.after front).record request).2 = (search.after front).conduct request ∧
      (search.after front).Accounted request
  /-- A round that is exhausted has moved the nonce on by all it was asked to try. -/
  exhausted : ∀ front request rest, requests = front ++ request :: rest →
    ((search.after front).conduct request).1 = .exhausted →
      ((search.after front).conduct request).2.block =
        (search.after front).block.ahead request.nonces

/-- **The search is exhaustive and exact.**  As long as less than a whole turn of nonces are
tried, rounds one after another try each nonce from that of the block on once, until one is
found; each ends as its trials say; and two rounds that are not interrupted are as good as one
of both lengths. -/
theorem search_thorough (search : Search) (requests : List RoundRequest)
    (h : (search.after requests).attempts < 2 ^ 64) :
    search.Thorough requests ∧
      ∀ (m n i j k : Nat) (no₁ no₂ no : Nat → Bool), (∀ question, no₁ question = false) →
        (∀ question, no₂ question = false) → (∀ question, no question = false) →
          Alike (search.round (m + n) k no)
            (inTurn (search.round m i no₁) fun next => next.round n j no₂) := by
  have hlength : (search.hashed requests).length ≤ (trials requests search).length := by
    rw [hashed, List.length_map]
    exact length_throughSuccess_le _
  have hbound : (search.hashed requests).length < UInt64.size := by
    rw [attempts_after] at h
    exact Nat.lt_of_le_of_lt (Nat.le_trans hlength (Nat.le_add_left _ _)) h
  refine ⟨⟨consecutive_hashed requests search, ?_, attempts_after requests search,
    block_after requests search, ?_, ?_⟩, ?_⟩
  · rw [consecutive_hashed]
    exact search.block.nodup_noncesFrom hbound
  · intro front request rest _
    exact ⟨record_snd _ _, accounted _ _⟩
  · intro front request rest _ hexhausted
    exact (accounted _ _).block_of_exhausted hexhausted
  · intro m n i j k no₁ no₂ no h₁ h₂ h
    exact search.alike_inTurn m n i j k h₁ h₂ h

/-- A search out of reach, in two rounds of which the second is told to stop. -/
theorem search_thorough_interrupted :
    let search : Search := ⟨.candidate ⟨[4]⟩ [] 0xFFFFFFFFFFFFFFFF 1 .zero, 0, 0⟩
    let requests : List RoundRequest := [⟨5, 100, fun _ => false⟩, ⟨100, 3, fun _ => true⟩]
    (search.after requests).attempts < 2 ^ 64 ∧ search.Thorough requests ∧
      Alike (search.round (5 + 7) 3 fun _ => false)
        (inTurn (search.round 5 100 fun _ => false) fun next =>
          next.round 7 2 fun _ => false) := by
  intro search requests
  have hbound : (search.after requests).attempts < 2 ^ 64 := by
    have hlength : (trials requests search).length ≤ 105 := length_trials_le requests search
    rw [attempts_after, Nat.zero_add]
    exact Nat.lt_of_le_of_lt hlength (by decide)
  obtain ⟨hthorough, hturns⟩ := search_thorough search requests hbound
  exact ⟨hbound, hthorough, hturns 5 7 100 2 3 _ _ _ (fun _ => rfl) (fun _ => rfl) fun _ => rfl⟩

end Search

end AttestedLedger
