import MiddleEnd.Proofs.Flow.Execution
import MiddleEnd.Proofs.Store.Prune

namespace MiddleEnd.Store

open MiddleEnd.Flow Outcome

/-- Is the event still seen when some assignments are gone? -/
def keepsEvent (gone : List NodeId) : Event → Bool
  | .item item => item.isKept gone
  | .enter _ => true

/-- An assignment that is gone comes next, if what comes next is gone. -/
theorem exists_store {gone : List NodeId} {rest : List Item}
    (head : ¬ ∀ item ∈ rest.head?, item.isKept gone = true) :
    ∃ store later, rest = .stmt store :: later ∧ store ∈ gone := by
  cases rest with
  | nil => simp at head
  | cons item later =>
    cases item with
    | stmt store => exact ⟨store, later, rfl, by simpa [Item.isKept] using head⟩
    | branch | loopTest | forHeader => simp [Item.isKept] at head

section

variable {Val World : Type}

/-- The graph `g'` is `g` without some assignments, none of which can be noticed: each writes one
symbol, which is no part of the outside world and which no path needs, and has no effect. -/
structure Fades (p q : Program) (g g' : Graph) (own : SymbolId → Bool) (I : Meaning Val World)
    (gone : List NodeId) : Prop where
  items (b : Nat) : (g'.block b).items = (g.block b).items.filter (Item.isKept gone)
  succ (b : Nat) : (g'.block b).succ = (g.block b).succ
  accesses {b : Nat} {item : Item} : item ∈ (g.block b).items → item.isKept gone = true →
    accesses q item = accesses p item
  unneeded {b : Nat} {before rest : List Item} {store : NodeId} {x : SymbolId} :
    (g.block b).items = before ++ .stmt store :: rest → store ∈ gone →
    .write x ∈ Flow.accesses p (.stmt store) → own x = true ∧ ¬ Needed p g x b rest
  effect {store : NodeId} (values : List Val) (world : World) : store ∈ gone →
    I.effect (.stmt store) values world = world

/-- The same place in two runs, of which the second one lacks some assignments: all that some path
needs has the same value, and so has the outside world. -/
structure Agree (p : Program) (g : Graph) (own : SymbolId → Bool) (I : Meaning Val World)
    (gone : List NodeId) (m m' : Moment Val World) : Prop where
  inside : ∃ before, (g.block m.block).items = before ++ m.rest
  block : m'.block = m.block
  rest : m'.rest = m.rest.filter (Item.isKept gone)
  world : m'.world = m.world
  choice : m'.choice = m.choice
  value {x : SymbolId} : Needed p g x m.block m.rest → m'.value own I x = m.value own I x

variable {p q : Program} {g g' : Graph} {own : SymbolId → Bool} {I : Meaning Val World}
  {gone : List NodeId} {m m' : Moment Val World} {item : Item} {rest : List Item} {store : NodeId}

namespace Agree

/-- A dead store goes unnoticed. -/
theorem skip (fades : Fades p q g g' own I gone) (agree : Agree p g own I gone m m')
    (next : m.rest = .stmt store :: rest) (member : store ∈ gone) :
    Agree p g own I gone (m.execute own I p (.stmt store) rest) m' := by
  obtain ⟨before, items⟩ := agree.inside
  rw [next] at items
  have world : (m.execute own I p (.stmt store) rest).world = m.world := fades.effect _ _ member
  refine ⟨⟨before ++ [.stmt store], by simpa using items⟩, agree.block, ?_, agree.world.trans world.symm,
    agree.choice, fun {x} needed => ?_⟩
  · rw [agree.rest, next, List.filter_cons_of_neg (by simp [Item.isKept, member])]
    rfl
  · have unwritten : .write x ∉ accesses p (.stmt store) := fun written =>
      (fades.unneeded items member written).2 needed
    have earlier : Needed p g x m.block m.rest := by
      rw [next, ← List.singleton_append, needed_append]
      exact .inr ⟨by simpa using unwritten, needed⟩
    have same : (m.execute own I p (.stmt store) rest).locals x = m.locals x := if_neg unwritten
    rw [agree.value earlier, Moment.value, Moment.value, world, same]

/-- Any other item does the same in both runs. -/
theorem execute (fades : Fades p q g g' own I gone) (agree : Agree p g own I gone m m')
    (next : m.rest = item :: rest) (kept : item.isKept gone = true) :
    m'.rest = item :: rest.filter (Item.isKept gone) ∧ Agree p g own I gone
      (m.execute own I p item rest) (m'.execute own I q item (rest.filter (Item.isKept gone))) := by
  obtain ⟨before, items⟩ := agree.inside
  rw [next] at items
  have same : accesses q item = accesses p item := fades.accesses (by rw [items]; simp) kept
  have values : (readSymbols (accesses p item)).map (m'.value own I) =
      (readSymbols (accesses p item)).map (m.value own I) := by
    refine List.map_congr_left fun x member => agree.value ?_
    rw [next, ← List.singleton_append, needed_append]
    exact .inl (by simpa using readFirst_accesses (mem_readSymbols.mp member))
  have world : (m'.execute own I q item (rest.filter (Item.isKept gone))).world =
      (m.execute own I p item rest).world := by
    simp only [Moment.execute, same, values, agree.world]
  refine ⟨by rw [agree.rest, next, List.filter_cons_of_pos kept], ⟨before ++ [item], by simpa using items⟩,
    agree.block, rfl, world, ?_, fun {x} needed => ?_⟩
  · cases item <;> simp only [Moment.execute, same, values, agree.world, agree.choice]
  · rw [Moment.value, Moment.value, world]
    cases isOwn : own x with
    | false => rfl
    | true =>
      rw [if_pos rfl, if_pos rfl]
      by_cases written : .write x ∈ accesses p item
      · simp only [Moment.execute, same, written, if_true, values, agree.world]
      · have earlier : Needed p g x m.block m.rest := by
          rw [next, ← List.singleton_append, needed_append]
          exact .inr ⟨by simpa using written, needed⟩
        have before := agree.value earlier
        rw [Moment.value, Moment.value, isOwn, if_pos rfl, if_pos rfl] at before
        simpa only [Moment.execute, same, written, if_false] using before

/-- Both runs take the same edge. -/
theorem enter (fades : Fades p q g g' own I gone) (agree : Agree p g own I gone m m')
    (ends : m.rest = []) {b : Nat} (edge : b ∈ (g.block m.block).succ) :
    Agree p g own I gone (m.enter g b) (m'.enter g' b) where
  inside := ⟨[], rfl⟩
  block := rfl
  rest := fades.items b
  world := agree.world
  choice := agree.choice
  value {x} needed := by
    have earlier : Needed p g x m.block m.rest := ends ▸ .of_succ edge needed
    have before := agree.value earlier
    exact before

/-- Where no dead store comes next, both runs take the same step, or both are over. -/
theorem lockstep (fades : Fades p q g g' own I gone) (agree : Agree p g own I gone m m')
    (head : ∀ item ∈ m.rest.head?, item.isKept gone = true) :
    m.step own I p g = none ∧ m'.step own I q g' = none ∨
      ∃ event next next', m.step own I p g = some (event, next) ∧
        m'.step own I q g' = some (event, next') ∧ keepsEvent gone event = true ∧
        Agree p g own I gone next next' := by
  cases next : m.rest with
  | nil =>
    have ends' : m'.rest = [] := by rw [agree.rest, next, List.filter_nil]
    rw [Moment.step_of_nil next, Moment.step_of_nil ends', agree.block, agree.choice, fades.succ]
    cases found : follow (g.block m.block).succ m.choice with
    | none => exact .inl ⟨rfl, rfl⟩
    | some b => exact .inr ⟨_, _, _, rfl, rfl, rfl, agree.enter fades next (mem_of_follow found)⟩
  | cons item rest =>
    have kept := head item (by simp [next])
    obtain ⟨next', agreeNext⟩ := agree.execute fades next kept
    exact .inr ⟨_, _, _, Moment.step_of_cons next, Moment.step_of_cons next', kept, agreeNext⟩

/-- When the run with the dead stores is over, so is the other. -/
theorem step_eq_none (fades : Fades p q g g' own I gone) (agree : Agree p g own I gone m m')
    (ended : m.step own I p g = none) : m'.step own I q g' = none := by
  have ends : m.rest = [] := by
    cases next : m.rest with
    | nil => rfl
    | cons item rest => cases (Moment.step_of_cons next).symm.trans ended
  obtain ⟨_, ended'⟩ | ⟨_, _, _, step, _⟩ := agree.lockstep fades (by simp [ends])
  · exact ended'
  · cases step.symm.trans ended

/-- A run without the dead stores keeps up with every run with them. -/
theorem forward (fades : Fades p q g g' own I gone) (agree : Agree p g own I gone m m') (n : Nat) :
    ∃ k, (m'.run own I q g' k).1 = (m.run own I p g n).1.filter (keepsEvent gone) ∧
      Agree p g own I gone (m.run own I p g n).2 (m'.run own I q g' k).2 := by
  induction n generalizing m m' with
  | zero => exact ⟨0, rfl, agree⟩
  | succ n ih =>
    by_cases head : ∀ item ∈ m.rest.head?, item.isKept gone = true
    · obtain ⟨ended, ended'⟩ | ⟨event, next, next', step, step', seen, agreeNext⟩ :=
        agree.lockstep fades head
      · rw [Moment.run_of_ended _ ended]
        exact ⟨0, rfl, agree⟩
      · obtain ⟨k, events, agreeLast⟩ := ih agreeNext
        refine ⟨k + 1, ?_⟩
        rw [Moment.run_of_step step rfl, Moment.run_of_step step' rfl, List.filter_cons_of_pos seen]
        exact ⟨by rw [events], agreeLast⟩
    · obtain ⟨store, rest, next, member⟩ := exists_store head
      obtain ⟨k, events, agreeLast⟩ := ih (agree.skip fades next member)
      refine ⟨k, ?_⟩
      rw [Moment.run_of_step (Moment.step_of_cons next) rfl,
        List.filter_cons_of_neg (by simp [keepsEvent, Item.isKept, member])]
      exact ⟨events, agreeLast⟩

/-- A run with the dead stores can go on until none of them comes next. -/
theorem settle (fades : Fades p q g g' own I gone) (agree : Agree p g own I gone m m') :
    ∃ n events t, m.run own I p g n = (events, t) ∧ events.filter (keepsEvent gone) = [] ∧
      Agree p g own I gone t m' ∧ ∀ item ∈ t.rest.head?, item.isKept gone = true := by
  induction left : m.rest.length generalizing m with
  | zero => exact ⟨0, [], m, rfl, rfl, agree, by simp [List.length_eq_zero_iff.mp left]⟩
  | succ left ih =>
    by_cases head : ∀ item ∈ m.rest.head?, item.isKept gone = true
    · exact ⟨0, [], m, rfl, rfl, agree, head⟩
    · obtain ⟨store, rest, next, member⟩ := exists_store head
      obtain ⟨n, events, t, run, unseen, agreeLast, head⟩ :=
        ih (agree.skip fades next member) (by simp_all)
      refine ⟨n + 1, _, t, Moment.run_of_step (Moment.step_of_cons next) run, ?_, agreeLast, head⟩
      rw [List.filter_cons_of_neg (by simp [keepsEvent, Item.isKept, member]), unseen]

/-- A run with the dead stores keeps up with every run without them, and is over when that is. -/
theorem backward (fades : Fades p q g g' own I gone) (agree : Agree p g own I gone m m') (k : Nat) :
    ∃ n, (m'.run own I q g' k).1 = (m.run own I p g n).1.filter (keepsEvent gone) ∧
      Agree p g own I gone (m.run own I p g n).2 (m'.run own I q g' k).2 ∧
      ((m'.run own I q g' k).2.step own I q g' = none →
        (m.run own I p g n).2.step own I p g = none) := by
  induction k generalizing m m' with
  | zero =>
    obtain ⟨n, events, t, run, unseen, agreeT, head⟩ := agree.settle fades
    refine ⟨n, ?_⟩
    rw [run]
    refine ⟨unseen.symm, agreeT, fun ended' => ?_⟩
    obtain ⟨ended, _⟩ | ⟨_, _, _, _, step', _⟩ := agreeT.lockstep fades head
    · exact ended
    · cases step'.symm.trans ended'
  | succ k ih =>
    obtain ⟨n, events, t, run, unseen, agreeT, head⟩ := agree.settle fades
    obtain ⟨ended, ended'⟩ | ⟨event, next, next', step, step', seen, agreeNext⟩ :=
      agreeT.lockstep fades head
    · refine ⟨n, ?_⟩
      rw [run, Moment.run_of_ended _ ended']
      exact ⟨unseen.symm, agreeT, fun _ => ended⟩
    · obtain ⟨j, same, agreeLast, halts⟩ := ih agreeNext
      obtain ⟨i, whole⟩ := Moment.run_add run (Moment.run_of_step (n := j) step rfl)
      refine ⟨i, ?_⟩
      rw [whole, Moment.run_of_step step' rfl]
      refine ⟨?_, agreeLast, halts⟩
      rw [List.filter_append, unseen, List.nil_append, List.filter_cons_of_pos seen, same]

end Agree

end

end MiddleEnd.Store
