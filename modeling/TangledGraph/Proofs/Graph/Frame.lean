import TangledGraph.Proofs.Graph.Course
import TangledGraph.Proofs.Machine.Memoryless

/-!
# Bids within a frame

A bid is kept with the number of the frame that it was made in, and frames are only
counted up. So at the start of a decision no bid counts, and a learner runs when it
bids for the first time; after that its bid is repeated, whichever team asks for it,
and its registers are left alone.
-/
namespace TangledGraph

namespace Context

variable {c c' : Context} {l k : LearnerId} {n : Nat} {persistent : Bool}

/-- What is left of a run of a learner: its registers and its bid. -/
def record (c : Context) (l : LearnerId) (file : Array Float) (value : Float) : Context :=
  { c with registers := c.registers.insert l file }.storeBid l value

theorem registers?_record (file : Array Float) (value : Float) :
    (c.record l file value).registers? k = if l = k then some file else c.registers? k := by
  simp [record, storeBid, registers?, Std.ExtTreeMap.getElem?_insert]

theorem bids_record (file : Array Float) (value : Float) :
    (c.record l file value).bids[k]? = if l = k then some (c.frame, value) else c.bids[k]? := by
  simp [record, storeBid, Std.ExtTreeMap.getElem?_insert]

theorem cachedBid?_record (file : Array Float) (value : Float) :
    (c.record l file value).cachedBid? k = if l = k then some value else c.cachedBid? k := by
  unfold cachedBid?
  rw [bids_record]
  by_cases same : l = k
  · simp [same, record, storeBid]
  · rw [if_neg same, if_neg same]
    rfl

/-- Registers have their size, and no bid belongs to a frame that is still to come. -/
structure Settled (n : Nat) (persistent : Bool) (c : Context) : Prop where
  registerCount : c.registerCount = n
  persistent : c.persistent = persistent
  size : ∀ {l : LearnerId} {file}, c.registers? l = some file → file.size = n
  dated : ∀ {l : LearnerId} {made : Nat × Float}, c.bids[l]? = some made → made.1 ≤ c.frame

/-- The registers that a run starts from: those of the last run if they are kept, else zeros. -/
theorem Settled.startRegisters_eq (h : c.Settled n persistent) (l : LearnerId) :
    c.startRegisters l =
      if persistent then (c.registers? l).getD (Array.replicate n 0.0)
      else Array.replicate n 0.0 := by
  rw [startRegisters, h.registerCount, h.persistent]
  cases registers : c.registers? l with
  | none => simp
  | some file => simp [h.size registers]

theorem Settled.size_startRegisters (h : c.Settled n persistent) (l : LearnerId) :
    (c.startRegisters l).size = n := by
  rw [h.startRegisters_eq]
  cases registers : c.registers? l with
  | none => simp
  | some file =>
    have := h.size registers
    split <;> simp [this]

theorem settled_create (n : Nat) (persistent : Bool) (seed : UInt64) :
    Settled n persistent (create n persistent seed) where
  registerCount := rfl
  persistent := rfl
  size h := by simp [create, registers?] at h
  dated h := by simp [create] at h

theorem Settled.beginFrame (h : c.Settled n persistent) : c.beginFrame.Settled n persistent where
  registerCount := h.registerCount
  persistent := h.persistent
  size := h.size
  dated made := (h.dated made).trans (Nat.le_succ c.frame)

theorem Settled.storeBid (h : c.Settled n persistent) (l : LearnerId) (value : Float) :
    (c.storeBid l value).Settled n persistent where
  registerCount := h.registerCount
  persistent := h.persistent
  size := h.size
  dated {k made} found := by
    simp only [Context.storeBid, Std.ExtTreeMap.getElem?_insert] at found ⊢
    split at found
    · obtain rfl := Option.some.inj found
      exact le_rfl
    · exact h.dated found

theorem Settled.reset (h : c.Settled n persistent) : c.reset.Settled n persistent where
  registerCount := h.registerCount
  persistent := h.persistent
  size found := by simp [Context.reset, registers?] at found
  dated found := by simp [Context.reset] at found

theorem Settled.record (h : c.Settled n persistent) (l : LearnerId) {file : Array Float}
    (size : file.size = n) (value : Float) : (c.record l file value).Settled n persistent := by
  have ran : Settled n persistent { c with registers := c.registers.insert l file } := by
    refine ⟨h.registerCount, h.persistent, fun {k file'} found => ?_, h.dated⟩
    simp only [registers?, Std.ExtTreeMap.getElem?_insert] at found
    split at found
    · exact Option.some.inj found ▸ size
    · exact h.size found
  exact ran.storeBid l value

/-- At the start of a frame no bid counts. -/
theorem Settled.cachedBid?_beginFrame (h : c.Settled n persistent) (l : LearnerId) :
    c.beginFrame.cachedBid? l = none := by
  unfold cachedBid?
  cases made : c.beginFrame.bids[l]? with
  | none => rfl
  | some made' =>
    have before := h.dated made
    exact if_neg (Nat.ne_of_lt (Nat.lt_succ_of_le before))

end Context

namespace Mind

variable {c : Context} {l : LearnerId} {learner : Learner} {input : Array Float}

/-- Without a memory a bid is repeated, or the learner runs and leaves its registers and
its bid. -/
theorem bid_memoryless (c : Context) (l : LearnerId) (learner : Learner) (input : Array Float) :
    (∃ value, c.cachedBid? l = some value ∧
      bid ⟨c, none⟩ l learner input = .ok (value, ⟨c, none⟩)) ∨
    c.cachedBid? l = none ∧ ∃ value file,
      learner.program.runOn (c.startRegisters l) input = .ok (value, file) ∧
      file.size = (c.startRegisters l).size ∧
      bid ⟨c, none⟩ l learner input = .ok (value, ⟨c.record l file value, none⟩) := by
  cases cached : c.cachedBid? l with
  | some value => exact .inl ⟨value, rfl, by simp only [bid, cached]; rfl⟩
  | none =>
    obtain ⟨value, file, run, size, ran⟩ := learner.program.runOn_ok (c.startRegisters l) input
    refine .inr ⟨rfl, value, file, run, size, ?_⟩
    simp only [bid, cached, runProgram, ran]
    rfl

end Mind

namespace Context

variable {n : Nat} {persistent : Bool} {c : Context}

/-- A context after any calls on it, none of them with a memory. -/
inductive Driven (n : Nat) (persistent : Bool) : Context → Prop
  | create (seed : UInt64) : Driven n persistent (create n persistent seed)
  | beginFrame {c : Context} (driven : Driven n persistent c) : Driven n persistent c.beginFrame
  | storeBid {c : Context} (driven : Driven n persistent c) (l : LearnerId) (value : Float) :
      Driven n persistent (c.storeBid l value)
  | reset {c : Context} (driven : Driven n persistent c) : Driven n persistent c.reset
  | bid {c : Context} (driven : Driven n persistent c) {l : LearnerId} {learner : Learner}
      {input : Array Float} {value : Float} {m : Mind}
      (run : Mind.bid ⟨c, none⟩ l learner input = .ok (value, m)) : Driven n persistent m.context
  | decideFrom {c : Context} (driven : Driven n persistent c) {p : Population}
      {input : Array Float} {t : TeamId} {visited : List TeamId} {result : Except Error Code}
      {w : Walk} (run : p.decideFrom input t ⟨visited, ⟨c, none⟩⟩ = .ok (result, w)) :
      Driven n persistent w.mind.context
  | act {c : Context} (driven : Driven n persistent c) {p : Population} {t : TeamId}
      {input : Array Float} {result : Except Error Code} {m : Mind}
      (run : p.act t input ⟨c, none⟩ = .ok (result, m)) : Driven n persistent m.context

/-- A settled context without a memory. -/
def Alone (n : Nat) (persistent : Bool) (m : Mind) : Prop :=
  m.memory = none ∧ m.context.Settled n persistent

theorem Alone.bid {m m' : Mind} (alone : Alone n persistent m) {l : LearnerId} {learner : Learner}
    {input : Array Float} {value : Float}
    (run : m.bid l learner input = .ok (value, m')) : Alone n persistent m' := by
  obtain ⟨c, memory⟩ := m
  obtain ⟨rfl, settled⟩ := alone
  obtain ⟨_, -, repeated⟩ | ⟨-, value', file, -, size, ran⟩ := Mind.bid_memoryless c l learner input
  · obtain ⟨-, rfl⟩ := Prod.mk.inj (Except.ok.inj (repeated.symm.trans run))
    exact ⟨rfl, settled⟩
  · obtain ⟨-, rfl⟩ := Prod.mk.inj (Except.ok.inj (ran.symm.trans run))
    exact ⟨rfl, settled.record l (size.trans (settled.size_startRegisters l)) value'⟩

theorem Driven.settled (driven : c.Driven n persistent) : c.Settled n persistent := by
  induction driven with
  | create seed => exact settled_create n persistent seed
  | beginFrame _ ih => exact ih.beginFrame
  | storeBid _ l value ih => exact ih.storeBid l value
  | reset _ ih => exact ih.reset
  | bid _ run ih => exact (Alone.bid ⟨rfl, ih⟩ run).2
  | decideFrom _ run ih =>
    exact (Population.decideFrom_keeps (Alone n persistent) (fun alone => alone.bid)
      ⟨rfl, ih⟩ run).2
  | act _ run ih =>
    exact (Population.act_keeps (Alone n persistent) (fun alone => alone.bid)
      (fun alone => ⟨alone.1, alone.2.beginFrame⟩) ⟨rfl, ih⟩ run).2

end Context

/-- What was heard in a frame since its start: every learner with a bid ran once, from the
registers that it had at the start, and no other learner has run. -/
structure Heard (p : Population) (input : Array Float) (start : Context) (bids : List Bid)
    (now : Context) : Prop where
  registerCount : now.registerCount = start.registerCount
  persistent : now.persistent = start.persistent
  enlisted : ∀ b ∈ bids, p.learner? b.id = some b.learner
  ran : ∀ b ∈ bids, ∃ file,
    b.learner.program.runOn (start.startRegisters b.id) input = .ok (b.value, file) ∧
    now.cachedBid? b.id = some b.value ∧ now.registers? b.id = some file
  rest : ∀ l, (∀ b ∈ bids, b.id ≠ l) →
    now.cachedBid? l = none ∧ now.registers? l = start.registers? l

namespace Heard

variable {p : Population} {input : Array Float} {start now : Context} {bids : List Bid}
variable {visited : List TeamId}

theorem refl (fresh : ∀ l, start.cachedBid? l = none) : Heard p input start [] start where
  registerCount := rfl
  persistent := rfl
  enlisted := by simp
  ran := by simp
  rest l _ := ⟨fresh l, rfl⟩

/-- A bid that is there already may be made again. -/
theorem again (heard : Heard p input start bids now) {l : LearnerId} {learner : Learner}
    (enlisted : p.learner? l = some learner) {value : Float}
    (cached : now.cachedBid? l = some value) :
    Heard p input start (bids ++ [⟨l, learner, value⟩]) now := by
  refine ⟨heard.registerCount, heard.persistent, ?_, ?_, ?_⟩
  · exact List.forall_mem_append.2 ⟨heard.enlisted, by simpa using enlisted⟩
  · refine List.forall_mem_append.2 ⟨heard.ran, fun b hb => ?_⟩
    obtain rfl := List.mem_singleton.1 hb
    -- The bid is there already, so the learner is one of those that have run.
    by_cases before : ∃ a ∈ bids, a.id = l
    · obtain ⟨a, ha, rfl⟩ := before
      obtain ⟨file, run, cached', registers⟩ := heard.ran a ha
      have same : a.learner = learner :=
        Option.some.inj ((heard.enlisted a ha).symm.trans enlisted)
      obtain rfl := Option.some.inj (cached'.symm.trans cached)
      exact ⟨file, same ▸ run, cached, registers⟩
    · push Not at before
      exact absurd ((heard.rest l before).1.symm.trans cached) nofun
  · intro k other
    exact heard.rest k fun b hb => other b (List.mem_append_left _ hb)

/-- The first run of a learner is recorded next to those of the others. -/
theorem record (heard : Heard p input start bids now) {l : LearnerId} {learner : Learner}
    (enlisted : p.learner? l = some learner) (first : ∀ b ∈ bids, b.id ≠ l) {value : Float}
    {file : Array Float}
    (run : learner.program.runOn (start.startRegisters l) input = .ok (value, file)) :
    Heard p input start (bids ++ [⟨l, learner, value⟩]) (now.record l file value) := by
  refine ⟨heard.registerCount, heard.persistent, ?_, ?_, ?_⟩
  · exact List.forall_mem_append.2 ⟨heard.enlisted, by simpa using enlisted⟩
  · refine List.forall_mem_append.2 ⟨fun b hb => ?_, fun b hb => ?_⟩
    · obtain ⟨file', run', cached, registers⟩ := heard.ran b hb
      have other : l ≠ b.id := (first b hb).symm
      refine ⟨file', run', ?_, ?_⟩
      · rw [Context.cachedBid?_record, if_neg other, cached]
      · rw [Context.registers?_record, if_neg other, registers]
    · obtain rfl := List.mem_singleton.1 hb
      refine ⟨file, run, ?_, ?_⟩
      · rw [Context.cachedBid?_record, if_pos rfl]
      · rw [Context.registers?_record, if_pos rfl]
  · intro k other
    have apart : l ≠ k := other ⟨l, learner, value⟩ (by simp)
    rw [Context.cachedBid?_record, if_neg apart, Context.registers?_record, if_neg apart]
    exact heard.rest k fun b hb => other b (List.mem_append_left _ hb)

/-- The next bid is an old one, or that of a learner that runs for the first time. -/
theorem bid (heard : Heard p input start bids now) {l : LearnerId} {learner : Learner}
    (enlisted : p.learner? l = some learner) :
    ∃ value next, Mind.bid ⟨now, none⟩ l learner input = .ok (value, ⟨next, none⟩) ∧
      Heard p input start (bids ++ [⟨l, learner, value⟩]) next := by
  obtain ⟨value, cached, repeated⟩ | ⟨uncached, value, file, run, -, made⟩ :=
    Mind.bid_memoryless now l learner input
  · exact ⟨value, now, repeated, heard.again enlisted cached⟩
  · have first : ∀ b ∈ bids, b.id ≠ l := by
      rintro b hb rfl
      obtain ⟨_, -, cached, -⟩ := heard.ran b hb
      exact absurd (uncached.symm.trans cached) nofun
    have same : now.startRegisters l = start.startRegisters l := by
      simp only [Context.startRegisters, heard.registerCount, heard.persistent,
        (heard.rest l first).2]
    exact ⟨value, now.record l file value, made, heard.record enlisted first (same ▸ run)⟩

/-- A bidding adds its bids. -/
theorem bidding (heard : Heard p input start bids now) {ls : List LearnerId} {m : Mind}
    {made : List Bid} (run : p.bidding input visited ls ⟨now, none⟩ = .ok (made, m)) :
    m.memory = none ∧ Heard p input start (bids ++ made) m.context := by
  induction ls generalizing bids now made with
  | nil =>
    simp only [Population.bidding, pure_eq_ok, Prod.mk.injEq] at run
    obtain ⟨rfl, rfl⟩ := run
    exact ⟨rfl, by rwa [List.append_nil]⟩
  | cons l ls ih =>
    simp only [Population.bidding, bind_eq_ok, Population.getLearner_eq_ok] at run
    obtain ⟨learner, enlisted, run⟩ := run
    split at run
    case isFalse => exact ih heard run
    case isTrue =>
      obtain ⟨value, next, bid, heard'⟩ := heard.bid enlisted
      simp only [bid, bind_eq_ok, pure_eq_ok, Prod.mk.injEq] at run
      obtain ⟨_, same, ⟨others, m₂⟩, rest, rfl, rfl⟩ := run
      obtain rfl := Except.ok.inj same
      obtain ⟨alone, heard''⟩ := ih heard' rest
      exact ⟨alone, by simpa using heard''⟩

/-- A course adds the bids of all its stages. -/
theorem course {t : TeamId} {w w' : Walk} {stages : List Stage} {result : Except Error Code}
    (alone : w.mind.memory = none) (heard : Heard p input start bids w.mind.context)
    (course : p.Course input t w stages result w') : w'.mind.memory = none ∧
      Heard p input start (bids ++ stages.flatMap Stage.bids) w'.mind.context := by
  have visits {t w stage w'} (visit : p.Visits input t w stage w') {bids : List Bid}
      (alone : w.mind.memory = none) (heard : Heard p input start bids w.mind.context) :
      w'.mind.memory = none ∧ Heard p input start (bids ++ stage.bids) w'.mind.context := by
    obtain ⟨_, context, memory⟩ := w
    obtain rfl : memory = none := alone
    exact heard.bidding visit.bidding
  induction course generalizing bids with
  | stuck visit | decided visit | lost visit => simpa using visits visit alone heard
  | hop visit _ _ _ ih =>
    obtain ⟨alone', heard'⟩ := visits visit alone heard
    obtain ⟨alone'', heard''⟩ := ih alone' heard'
    exact ⟨alone'', by simpa using heard''⟩

end Heard

namespace Population

variable {p : Population} {t : TeamId} {input : Array Float}
variable {n : Nat} {persistent : Bool} {c : Context} {stages : List Stage}

/-- What the stages of a decision without a memory make of a context: each learner that
bids at some stage has run once from its registers, and all its bids are what that run
gave; no other learner has run. -/
structure RunsOnce (p : Population) (input : Array Float) (n : Nat) (persistent : Bool)
    (c : Context) (stages : List Stage) (c' : Context) : Prop where
  /-- The bidders of a stage are the members that may be followed after the teams so far. -/
  bidders : ∀ before stage after, stages = before ++ stage :: after →
    stage.bids.map Bid.id =
      (p.members stage.team).filter (p.eligible ((before ++ [stage]).map Stage.team))
  ran : ∀ stage ∈ stages, ∀ b ∈ stage.bids, p.learner? b.id = some b.learner ∧ ∃ file,
    b.learner.program.runOn
      (if persistent then (c.registers? b.id).getD (Array.replicate n 0.0)
        else Array.replicate n 0.0) input = .ok (b.value, file) ∧
    c'.registers? b.id = some file
  rest : ∀ l, (∀ stage ∈ stages, ∀ b ∈ stage.bids, b.id ≠ l) →
    c'.registers? l = c.registers? l

/-- After a decision in any context every learner that bid has run exactly once, at however
many teams it was asked. -/
theorem act_runs_once (driven : c.Driven n persistent) {result : Except Error Code} {m : Mind}
    (run : p.act t input ⟨c, none⟩ = .ok (result, m)) :
    ∃ stages, (if p.containsTeam t then
        p.decideFrom input t ⟨[], ⟨c.beginFrame, none⟩⟩ =
          .ok (result, ⟨stages.map Stage.team, m⟩) ∧
        p.Course input t ⟨[], ⟨c.beginFrame, none⟩⟩ stages result ⟨stages.map Stage.team, m⟩
      else stages = []) ∧
      p.RunsOnce input n persistent c stages m.context := by
  have settled := driven.settled
  by_cases there : p.containsTeam t = true
  · obtain ⟨team, found⟩ := containsTeam_iff.1 there
    rw [act_eq_decideFrom there, map_eq_ok] at run
    obtain ⟨⟨_, visited, m'⟩, decided, ⟨⟩⟩ := run
    have walked := decided
    simp only [decideFrom, found] at walked
    obtain ⟨stages, course⟩ := walk_course found (by simp) walked
    obtain rfl : visited = stages.map Stage.team := course.visited_eq
    obtain ⟨-, heard⟩ := Heard.course rfl (.refl settled.cachedBid?_beginFrame) course
    refine ⟨stages, ?_, ?_, fun stage hs b hb => ?_, fun l silent => ?_⟩
    · rw [if_pos there]
      exact ⟨decided, course⟩
    · rintro before stage after rfl
      exact course.bidders
    · have made : b ∈ [] ++ stages.flatMap Stage.bids := List.mem_flatMap.2 ⟨stage, hs, hb⟩
      obtain ⟨file, run, -, registers⟩ := heard.ran b made
      rw [settled.beginFrame.startRegisters_eq] at run
      exact ⟨heard.enlisted b made, file, run, registers⟩
    · refine (heard.rest l fun b hb => ?_).2
      obtain ⟨stage, hs, hb⟩ := List.mem_flatMap.1 hb
      exact silent stage hs b hb
  · simp only [act, if_neg there, pure_eq_ok, Prod.mk.injEq] at run
    obtain ⟨-, rfl⟩ := run
    exact ⟨[], by rw [if_neg there], by simp, by simp, fun _ _ => rfl⟩

/-- Both teams have the learner with the code. The first one leads to the second by a greater
bid, and back from there a learner may not be followed. -/
def relay : List (Stock.Call × Stream) :=
  [.createTeam 0, .createTeam 0,
    .createLearner ⟨⟨0⟩, [⟨.input, .add, 0, 0⟩, ⟨.input, .add, 0, 0⟩]⟩ (.team ⟨1⟩) 0,
    .createLearner ⟨⟨1⟩, [⟨.input, .add, 0, 0⟩]⟩ (.atomic (.discrete 7)) 0,
    .createLearner ⟨⟨2⟩, [⟨.input, .add, 0, 0⟩]⟩ (.team ⟨0⟩) 0,
    .addLearner ⟨0⟩ ⟨0⟩, .addLearner ⟨0⟩ ⟨1⟩, .addLearner ⟨1⟩ ⟨2⟩, .addLearner ⟨1⟩ ⟨1⟩].map
      fun call => (call, Stream.ofScript [])

/-- The second of two decisions with registers that are kept. -/
theorem relay_runs_once : ∃ stock c result m stages, Stock.perform ⟨.empty, {}⟩ relay = .ok stock ∧
    c.Driven 1 true ∧ stock.population.act ⟨0⟩ #[1.0] ⟨c, none⟩ = .ok (result, m) ∧
    stages.map Stage.team = [⟨0⟩, ⟨1⟩] ∧
    (c.registers? ⟨1⟩).map (Array.map Float.toBits) = some #[(1.0 : Float).toBits] ∧
    (m.context.registers? ⟨1⟩).map (Array.map Float.toBits) = some #[(2.0 : Float).toBits] ∧
    stock.population.RunsOnce #[1.0] 1 true c stages m.context := by
  have run : (do
      let stock ← Stock.perform ⟨.empty, {}⟩ relay
      let first ← stock.population.act ⟨0⟩ #[1.0] ⟨Context.create 1 true 0, none⟩
      let second ← stock.population.decideFrom #[1.0] ⟨0⟩
        ⟨[], ⟨first.2.context.beginFrame, none⟩⟩
      pure (stock.population.containsTeam ⟨0⟩, second.2.visited,
        (first.2.context.registers? ⟨1⟩).map (Array.map Float.toBits),
        (second.2.mind.context.registers? ⟨1⟩).map (Array.map Float.toBits))) =
      .ok (true, [⟨0⟩, ⟨1⟩], some #[(1.0 : Float).toBits], some #[(2.0 : Float).toBits]) := by
    decide +kernel
  simp only [bind_eq_ok, pure_eq_ok, Prod.mk.injEq] at run
  obtain ⟨stock, made, ⟨_, first⟩, acted, ⟨result, w⟩, decided, there, path, before, after⟩ := run
  have driven : first.context.Driven 1 true := .act (.create 0) acted
  have second : stock.population.act ⟨0⟩ #[1.0] ⟨first.context, none⟩ = .ok (result, w.mind) := by
    rw [act_eq_decideFrom there, decided]
    rfl
  obtain ⟨stages, course, once⟩ := act_runs_once driven second
  rw [if_pos there] at course
  have walked := (Prod.mk.inj (Except.ok.inj (course.1.symm.trans decided))).2
  exact ⟨stock, first.context, result, w.mind, stages, made, driven, second,
    (congrArg Walk.visited walked).trans path, before, after, once⟩

end Population

end TangledGraph
