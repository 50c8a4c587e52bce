import MiddleEnd.Closure.Capture
import MiddleEnd.Proofs.Closure.Nesting

namespace MiddleEnd

namespace Flow

theorem Ascending.mem_insert {α : Type} {rank : α → Int}
    (apart : ∀ {x y}, rank x = rank y → x = y) {a b : α} {xs : List α} :
    b ∈ insert rank a xs ↔ b = a ∨ b ∈ xs := by
  induction xs with
  | nil => simp [insert]
  | cons c rest ih =>
    rw [insert]
    split
    · simp
    · split
      · simp only [List.mem_cons, ih]
        tauto
      · have same : a = c := apart (by omega)
        subst same
        simp

theorem Ascending.mem_union {α : Type} {rank : α → Int}
    (apart : ∀ {x y}, rank x = rank y → x = y) {b : α} {xs ys : List α} :
    b ∈ union rank xs ys ↔ b ∈ xs ∨ b ∈ ys := by
  induction ys generalizing xs with
  | nil => simp [union]
  | cons y rest ih =>
    rw [union, List.foldl_cons, ← union, ih, mem_insert apart, List.mem_cons]
    tauto

namespace Problem

variable {α : Type} [DecidableEq α] (problem : Problem α)

/-- IN of a node is the transfer of something. -/
def Visited (facts : Facts α) (node : Nat) : Prop :=
  ∃ out, facts.ins[node]? = some (problem.transfer node out)

theorem visit_size (state : Bool × Facts α) (node : Nat) :
    (problem.visit state node).2.ins.size = state.2.ins.size := by
  simp [visit]

theorem visit_visited {state : Bool × Facts α} {node i : Nat}
    (ready : i = node ∧ node < state.2.ins.size ∨ problem.Visited state.2 i) :
    problem.Visited (problem.visit state node).2 i := by
  by_cases same : i = node
  · subst same
    have known : i < state.2.ins.size := by
      rcases ready with ⟨_, known⟩ | ⟨out, found⟩
      · exact known
      · exact (Array.getElem?_eq_some_iff.mp found).1
    exact ⟨problem.joined state.2 i, by simp [visit, known]⟩
  · obtain ⟨out, found⟩ := ready.resolve_left fun both => same both.1
    exact ⟨out, by simp [visit, Array.getElem?_setIfInBounds_ne (Ne.symm same), found]⟩

theorem foldl_visit (order : List Nat) (state : Bool × Facts α) :
    (order.foldl problem.visit state).2.ins.size = state.2.ins.size ∧
      ∀ i, i ∈ order ∧ i < state.2.ins.size ∨ problem.Visited state.2 i →
        problem.Visited (order.foldl problem.visit state).2 i := by
  induction order generalizing state with
  | nil => exact ⟨rfl, fun i ready => ready.resolve_left (by simp)⟩
  | cons node rest ih =>
    obtain ⟨size, visited⟩ := ih (problem.visit state node)
    rw [problem.visit_size] at size visited
    refine ⟨size, fun i ready => ?_⟩
    rw [List.foldl_cons]
    refine visited i ?_
    rcases ready with ⟨member, known⟩ | already
    · rcases List.mem_cons.mp member with rfl | later
      · exact .inr (problem.visit_visited (.inl ⟨rfl, known⟩))
      · exact .inl ⟨later, known⟩
    · exact .inr (problem.visit_visited (.inr already))

theorem settle_visited {order : List Nat} {fuel sweeps : Nat} {facts : Facts α} {i : Nat}
    (ready : i ∈ order ∧ i < facts.ins.size ∧ 0 < fuel ∨ problem.Visited facts i) :
    problem.Visited (problem.settle order fuel sweeps facts).toFacts i := by
  induction fuel generalizing sweeps facts with
  | zero => exact ready.resolve_left fun both => Nat.lt_irrefl _ both.2.2
  | succ fuel ih =>
    have once : problem.Visited (problem.sweep order facts).2 i := by
      refine (problem.foldl_visit order (false, facts)).2 i ?_
      exact ready.imp_left fun both => ⟨both.1, both.2.1⟩
    rw [settle]
    split
    · rename_i after equal
      rw [equal] at once
      exact ih (.inr once)
    · rename_i after equal
      rw [equal] at once
      exact once

theorem solve_visited {i : Nat} (known : i < problem.size) :
    problem.Visited problem.solve.toFacts i := by
  refine problem.settle_visited (.inl ⟨?_, ?_, Nat.succ_pos _⟩)
  · simpa using known
  · simpa [start] using known

/-! What join and transfer keep holds at every node. -/

section

variable {problem} {Q : α → Prop} (atBottom : Q problem.bottom)
  (onJoin : ∀ a b, Q a → Q b → Q (problem.join a b))
  (onTransfer : ∀ node a, Q a → Q (problem.transfer node a))

omit [DecidableEq α] in
include atBottom onJoin in
theorem joined_keeps {facts : Facts α} (before : ∀ a ∈ facts.ins, Q a) (node : Nat) :
    Q (problem.joined facts node) := by
  unfold joined
  generalize problem.succ.getD node [] = succ
  have start : ∀ acc, Q acc → Q (succ.foldl
      (fun acc s => problem.join acc (facts.ins.getD s problem.bottom)) acc) := by
    induction succ with
    | nil => exact fun _ => id
    | cons s rest ih =>
      intro acc kept
      refine ih _ (onJoin _ _ kept ?_)
      rw [Array.getD_eq_getD_getElem?]
      cases found : facts.ins[s]? with
      | none => exact atBottom
      | some a => exact before a (Array.mem_of_getElem? found)
  exact start _ atBottom

include atBottom onJoin onTransfer in
theorem foldl_visit_keeps {order : List Nat} {state : Bool × Facts α}
    (before : ∀ a ∈ state.2.ins, Q a) : ∀ a ∈ (order.foldl problem.visit state).2.ins, Q a := by
  induction order generalizing state with
  | nil => exact before
  | cons node rest ih =>
    rw [List.foldl_cons]
    refine ih fun a member => ?_
    rcases Array.mem_or_eq_of_mem_setIfInBounds member with old | rfl
    · exact before a old
    · exact onTransfer node _ (joined_keeps atBottom onJoin before node)

include atBottom onJoin onTransfer in
theorem settle_keeps {order : List Nat} {fuel sweeps : Nat} {facts : Facts α}
    (before : ∀ a ∈ facts.ins, Q a) :
    ∀ a ∈ (problem.settle order fuel sweeps facts).ins, Q a := by
  induction fuel generalizing sweeps facts with
  | zero => exact before
  | succ fuel ih =>
    have once : ∀ a ∈ (problem.sweep order facts).2.ins, Q a :=
      foldl_visit_keeps atBottom onJoin onTransfer before
    rw [settle]
    split
    · rename_i after equal
      rw [equal] at once
      exact ih once
    · rename_i after equal
      rw [equal] at once
      exact once

include atBottom onJoin onTransfer in
theorem solve_keeps : ∀ a ∈ problem.solve.ins, Q a := by
  refine settle_keeps atBottom onJoin onTransfer fun a member => ?_
  rw [Array.mem_replicate.mp member |>.2]
  exact atBottom

end

end Problem

end Flow

namespace Closure

open Program

variable {p : Program}

theorem captureRank_apart {x y : SymbolId} (same : captureRank x = captureRank y) : x = y := by
  unfold captureRank at same
  exact SymbolId.index_inj.mp (Int.ofNat.inj same)

theorem known_of_isOuterVar {v f : SymbolId} (outer : p.isOuterVar v f = true) :
    v.index < p.symbols.size := by
  by_contra unknown
  rw [isOuterVar, declaringFn?, declaringScope?, symbol_of_not_known (by omega)] at outer
  simp [Symbol.absent] at outer

namespace Captures

theorem mem_sets {g : Calls.CallGraph} {f : SymbolId} {caps : List SymbolId}
    (member : (f, caps) ∈ (compute p g).sets) :
    ∃ fromCallees : List SymbolId, caps = Flow.Ascending.union captureRank (directCaptures p f)
      (fromCallees.filter (p.isOuterVar · f)) := by
  obtain ⟨i, found⟩ := List.mem_iff_getElem?.mp (List.mem_of_mem_filter member)
  rw [List.getElem?_zip_eq_some] at found
  obtain ⟨atF, atCaps⟩ := found
  have known : i < (captureProblem p g).size := by
    have bound := (List.getElem?_eq_some_iff.mp atF).1
    simpa [Flow.Problem.size, captureProblem, Calls.CallGraph.successors] using bound
  obtain ⟨out, visited⟩ := (captureProblem p g).solve_visited known
  rw [Array.getElem?_toList, visited] at atCaps
  simp only [captureProblem, atF] at atCaps
  exact ⟨out, (Option.some.inj atCaps).symm⟩

theorem mem_sets_of_mem {g : Calls.CallGraph} {f v : SymbolId} (captured : v ∈ (compute p g).of f) :
    ∃ caps, (f, caps) ∈ (compute p g).sets ∧ v ∈ caps := by
  unfold of at captured
  cases found : (compute p g).sets.lookup f with
  | none =>
    rw [found] at captured
    cases captured
  | some caps =>
    rw [found] at captured
    obtain ⟨before, after, equal, _⟩ := List.lookup_eq_some_iff.mp found
    exact ⟨caps, by rw [equal]; simp, captured⟩

/-- Only outer variables are captured. -/
theorem isOuterVar_of_mem {g : Calls.CallGraph} {f v : SymbolId}
    (captured : v ∈ (compute p g).of f) : p.isOuterVar v f = true := by
  obtain ⟨caps, member, listed⟩ := mem_sets_of_mem captured
  obtain ⟨fromCallees, equal⟩ := mem_sets member
  rw [equal, Flow.Ascending.mem_union captureRank_apart] at listed
  rcases listed with direct | passed
  · rw [directCaptures, Flow.Ascending.ofList, Flow.Ascending.mem_union captureRank_apart] at direct
    exact (List.mem_filter.mp (direct.resolve_left (by simp))).2
  · exact (List.mem_filter.mp passed).2

theorem mem_capturing {g : Calls.CallGraph} {f v : SymbolId}
    (captured : v ∈ (compute p g).of f) : f ∈ (compute p g).capturing := by
  obtain ⟨caps, member, _⟩ := mem_sets_of_mem captured
  rw [capturing, Flow.Ascending.ofList, Flow.Ascending.mem_union captureRank_apart]
  exact .inr (List.mem_map.mpr ⟨_, member, rfl⟩)

theorem registered_of_capturing {f : SymbolId} (member : f ∈ (compute p (.build p)).capturing) :
    f ∈ p.registries.fns := by
  rw [capturing, Flow.Ascending.ofList, Flow.Ascending.mem_union captureRank_apart] at member
  obtain ⟨⟨g, caps⟩, listed, rfl⟩ := List.mem_map.mp (member.resolve_left (by simp))
  exact (List.of_mem_zip (List.mem_of_mem_filter listed)).1

theorem known_of_mem {g : Calls.CallGraph} {f v : SymbolId} (captured : v ∈ (compute p g).of f) :
    v.index < p.symbols.size :=
  known_of_isOuterVar (isOuterVar_of_mem captured)

/-- What is captured somewhere is referred to somewhere. -/
theorem exists_ref_of_mem (settled : p.Settled) {f v : SymbolId}
    (captured : v ∈ (compute p (.build p)).of f) :
    ∃ n, p.Reached n ∧ (p.kind n).symRef? = some v := by
  obtain ⟨caps, member, inside⟩ := mem_sets_of_mem captured
  have solved := (List.of_mem_zip (List.mem_of_mem_filter member)).2
  have keeps : ∀ caps ∈ (captureProblem p (.build p)).solve.ins,
      ∀ v ∈ caps, ∃ n, p.Reached n ∧ (p.kind n).symRef? = some v := by
    refine Flow.Problem.solve_keeps nofun (fun a b ofA ofB v member => ?_)
      fun node a ofA v member => ?_
    · rcases (Flow.Ascending.mem_union captureRank_apart).mp member with left | right
      · exact ofA v left
      · exact ofB v right
    · simp only [captureProblem] at member
      split at member
      · rename_i g atG
        rcases (Flow.Ascending.mem_union captureRank_apart).mp member with direct | passed
        · rw [directCaptures, Flow.Ascending.ofList,
            Flow.Ascending.mem_union captureRank_apart] at direct
          have own := (List.mem_filter.mp (direct.resolve_left (by simp))).1
          obtain ⟨d, placed⟩ := settled.placed_of_registered (List.mem_of_getElem? atG)
          rw [ownRefs, (settled.fnBody?_eq placed).1] at own
          obtain ⟨n, collected, ref⟩ := List.mem_filterMap.mp own
          have live := settled.sound.live_of_reached placed.1
          have held := ((settled.sound.forest.mem_collectOwn live).mp collected).1
          exact ⟨n, placed.1.of_above settled.sound.forest
            (settled.sound.forest.live_of_own live held)
            (settled.sound.forest.above_of_own live held), ref⟩
        · exact ofA v (List.mem_filter.mp passed).1
      · cases member
  exact keeps caps (Array.mem_toList_iff.mp solved) v inside

/-- A function captures every outer variable that it refers to itself. -/
theorem mem_of_directCaptures {f v : SymbolId}
    (listed : f ∈ p.registries.fns) (direct : v ∈ directCaptures p f) :
    v ∈ (compute p (.build p)).of f := by
  let g := Calls.CallGraph.build p
  obtain ⟨i, atF⟩ := List.mem_iff_getElem?.mp listed
  have known : i < (captureProblem p g).size := by
    have bound := (List.getElem?_eq_some_iff.mp atF).1
    simpa [g, Flow.Problem.size, captureProblem, Calls.CallGraph.successors,
      Calls.CallGraph.build] using bound
  obtain ⟨out, visited⟩ := (captureProblem p g).solve_visited known
  have atF' : g.functions[i]? = some f := atF
  simp only [captureProblem, atF'] at visited
  obtain ⟨caps, atCaps, inside⟩ : ∃ caps,
      (captureProblem p g).solve.ins.toList[i]? = some caps ∧ v ∈ caps := by
    refine ⟨_, (Array.getElem?_toList ..).trans visited, ?_⟩
    rw [Flow.Ascending.mem_union captureRank_apart]
    exact .inl direct
  have member : (f, caps) ∈ (compute p g).sets := by
    refine List.mem_filter.mpr ⟨?_, ?_⟩
    · exact List.mem_iff_getElem?.mpr ⟨i, List.getElem?_zip_eq_some.mpr ⟨atF', atCaps⟩⟩
    · cases caps with
      | nil => cases inside
      | cons => rfl
  cases found : (compute p g).sets.lookup f with
  | none =>
    have missing := List.lookup_eq_none_iff.mp found _ member
    simp at missing
  | some caps' =>
    obtain ⟨before, after, equal, _⟩ := List.lookup_eq_some_iff.mp found
    have entry : (f, caps') ∈ (compute p g).sets := by
      rw [equal]
      simp
    obtain ⟨fromCallees, whole⟩ := mem_sets entry
    rw [of, found, Option.getD_some, whole, Flow.Ascending.mem_union captureRank_apart]
    exact .inl direct

end Captures

end Closure

end MiddleEnd
