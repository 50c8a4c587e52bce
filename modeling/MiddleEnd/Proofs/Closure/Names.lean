import MiddleEnd.Proofs.Closure.Correspond
import MiddleEnd.Proofs.Closure.Returns
import MiddleEnd.Proofs.Surface.Unique

/-! Names after closure conversion: symbols keep them, but functions come together that stood apart,
and new formals are named after captured variables. -/

namespace MiddleEnd

open Outcome

namespace Program

variable {p : Program} {f g : SymbolId} {d e o : NodeId}

/-- Functions that are defined side by side have different names. -/
theorem UniquelyNamed.function_eq (unique : p.UniquelyNamed) (tidy : p.Tidy) (placedF : p.Placed f d)
    (placedG : p.Placed g e) (childD : d ∈ p.children o) (childE : e ∈ p.children o)
    (same : p.name f = p.name g) : f = g := by
  have notVar {h : SymbolId} {n : NodeId} (placed : p.Placed h n) :
      (p.symbol h).kind.sort ≠ .var := by
    rw [isFn_iff_sort.mp (tidy.isFn_of_fnDef (tidy.sound.live_of_reached placed.1) placed.2.1 placed.2.2)]
    nofun
  exact unique childD childE placedF.2.2 placedG.2.2 (notVar placedF) (notVar placedG) same

/-- The formals of a function have different names. -/
theorem UniquelyNamed.formals_nodup (unique : p.UniquelyNamed) (tidy : p.Tidy)
    (placed : p.Placed f d) : ((p.formals f).map p.name).Nodup := by
  obtain ⟨found, defs, body, kind, _⟩ := tidy.fnBody?_eq placed
  have live := tidy.sound.live_of_reached placed.1
  have formals : p.formals f = defs.filterMap fun c => (p.kind c).defines? := by
    simp [Program.formals, formalDefs, found, kind]
  have child {c : NodeId} (member : c ∈ defs) : c ∈ p.children d := by
    rw [children, kind]
    exact List.mem_append_left _ member
  have notVar {c : NodeId} {v : SymbolId} (member : c ∈ defs)
      (defines : (p.kind c).defines? = some v) : (p.symbol v).kind.sort ≠ .var := by
    obtain ⟨_, w, defines', sort⟩ : p.Fits c .formal :=
      (tidy.lawful live).fits (by simp [kind, NodeKind.slots, member])
    cases defines.symm.trans defines'
    simp [sort]
  rw [formals]
  refine List.Nodup.map_on ?_ (List.Nodup.filterMap ?_ ?_)
  · intro v memberV w memberW same
    obtain ⟨c, memberC, definesC⟩ := List.mem_filterMap.mp memberV
    obtain ⟨c', memberC', definesC'⟩ := List.mem_filterMap.mp memberW
    exact unique (child memberC) (child memberC') definesC definesC' (notVar memberC definesC)
      (notVar memberC' definesC') same
  · exact fun c c' v first second => tidy.sound.bound_unique first second
  · have distinct := tidy.sound.forest.children_nodup live
    rw [children, kind] at distinct
    exact (List.nodup_append.mp distinct).1

end Program

namespace Closure

open Program

variable {p q : Program} {result : TransformResult}

section

variable (convertible : Convertible p) (converts : flatten p = .ok result q)

include convertible converts

/-- A symbol that was there keeps its name. -/
theorem name_of_flatten {v : SymbolId} (known : v.index < p.symbols.size) : q.name v = p.name v := by
  rcases (flatten_transforming convertible).of_ok converts with
    ⟨_, rfl⟩ | ⟨_, passed, first, start, w, t, _, _, _, transforms⟩
  · rfl
  · exact (transforms.lasts known).name

/-- The formals of a function have the names that they had, and the new ones those of the captured
variables. -/
theorem formalNames_of_flatten {g : SymbolId} (member : g ∈ p.registries.fns) :
    (q.formals g).map q.name = (p.formals g).map p.name ++
      ((Captures.compute p (.build p)).of g).map p.name := by
  have settled := convertible.settled
  obtain ⟨converted, _⟩ := (flatten_converts settled convertible.lexical).of_ok converts
  obtain ⟨d, placed⟩ := settled.placed_of_registered member
  obtain ⟨found, defs, body, kind, _⟩ := settled.fnBody?_eq placed
  have formalDefs : p.formalDefs g = defs := by simp [formalDefs, found, kind]
  have known {c : NodeId} (member : c ∈ defs) : c.index < p.nodes.size := by
    have child : c ∈ p.children d := by simp [children, kind, NodeKind.children, member]
    exact (settled.sound.forest.child_live (settled.sound.live_of_reached placed.1) child).known
  have old : (defs.filterMap fun c => (q.kind c).defines?).map q.name =
      (defs.filterMap fun c => (p.kind c).defines?).map p.name := by
    rw [List.filterMap_congr fun c member => converted.defines_before (known member)]
    refine List.map_congr_left fun v member => name_of_flatten convertible converts ?_
    obtain ⟨c, _, defines⟩ := List.mem_filterMap.mp member
    exact settled.sound.bound_known defines
  have names {vs : List SymbolId} {new : List NodeId}
      (made : List.Forall₂ (fun s d => ∃ formal, FormalOf p q s formal d) vs new) :
      (new.filterMap fun c => (q.kind c).defines?).map q.name = vs.map p.name := by
    induction made with
    | nil => rfl
    | cons here _ ih =>
      obtain ⟨formal, formalOf⟩ := here
      rw [List.filterMap_cons, formalOf.define]
      exact congrArg₂ List.cons formalOf.name_eq ih
  obtain ⟨new, behind, made⟩ := formals_of_convertible convertible converts member
  rw [formals, behind, formalDefs, List.filterMap_append, List.map_append, old, names made, formals,
    formalDefs]

end

/-- Closure conversion keeps names. Functions that come to stand in one block and have one name had
that name before, in different blocks. The formals that a function had keep their names, which are
different, and all its formals have different names just if the captured variables have, and none
has the name of such a formal. -/
theorem flatten_names (lowered : (∃ tree : Surface.ProgramTree, tree.lower = .ok p) ∨ Linked p)
    (converts : flatten p = .ok result q) :
    (∀ v : SymbolId, v.index < p.symbols.size → q.name v = p.name v) ∧
    (∀ f g d e b, q.Placed f d → q.Placed g e → d ∈ q.children b → e ∈ q.children b → f ≠ g →
      q.name f = q.name g →
      p.Placed f d ∧ p.Placed g e ∧ p.name f = p.name g ∧ p.parent? d ≠ p.parent? e) ∧
    ∀ g ∈ q.registries.fns,
      (q.formals g).map q.name = (p.formals g).map p.name ++
        ((Captures.compute p (.build p)).of g).map p.name ∧
      ((p.formals g).map p.name).Nodup ∧
      (((q.formals g).map q.name).Nodup ↔ (((Captures.compute p (.build p)).of g).map p.name).Nodup ∧
        ∀ v ∈ (Captures.compute p (.build p)).of g, ∀ w ∈ p.formals g, p.name v ≠ p.name w) := by
  obtain ⟨convertible, unique⟩ : Convertible p ∧ p.UniquelyNamed := by
    rcases lowered with ⟨tree, lowered⟩ | linked
    · exact ⟨convertible_of_lowered lowered, Surface.ProgramTree.lowered_uniquelyNamed lowered⟩
    · exact ⟨convertible_of_linked linked, linked.uniquelyNamed⟩
  have settled := convertible.settled
  obtain ⟨converted, _⟩ := (flatten_converts settled convertible.lexical).of_ok converts
  have kept {f : SymbolId} {d : NodeId} (placed : p.Placed f d) : q.name f = p.name f :=
    name_of_flatten convertible converts (settled.sound.bound_known placed.2.2)
  refine ⟨fun v => name_of_flatten convertible converts, ?_, fun g member => ?_⟩
  · intro f g d e b placedF placedG _ _ different same
    have beforeF := converted.placed_before placedF
    have beforeG := converted.placed_before placedG
    rw [kept beforeF, kept beforeG] at same
    refine ⟨beforeF, beforeG, same, fun together => different ?_⟩
    -- A function stands in a block, so one block has both.
    obtain ⟨_, o, link, _⟩ := settled.standing_fnDef beforeF.1 beforeF.2.1
    have childD := settled.sound.forest.owner_lists (settled.sound.live_of_reached beforeF.1) link
    have childE := settled.sound.forest.owner_lists (settled.sound.live_of_reached beforeG.1)
      (together.symm.trans link)
    exact unique.function_eq settled.toTidy beforeF beforeG childD childE same
  · obtain ⟨d, placed⟩ := converted.settled.placed_of_registered member
    have before := converted.placed_before placed
    have names :=
      formalNames_of_flatten convertible converts (settled.registered_of_placed before)
    have own := unique.formals_nodup settled.toTidy before
    refine ⟨names, own, ?_⟩
    rw [names, List.nodup_append]
    constructor
    · rintro ⟨_, captured, apart⟩
      exact ⟨captured, fun v inV w inW same =>
        apart _ (List.mem_map_of_mem inW) _ (List.mem_map_of_mem inV) same.symm⟩
    · rintro ⟨captured, apart⟩
      refine ⟨own, captured, fun x inX y inY same => ?_⟩
      obtain ⟨w, inW, rfl⟩ := List.mem_map.mp inX
      obtain ⟨v, inV, rfl⟩ := List.mem_map.mp inY
      exact apart v inV w inW same.symm

/-- In `nestedTree` no names meet: the inner functions get two formals each, of two names. -/
theorem nestedLinked_names :
    let p := Surface.nestedLinked
    let q := left (flatten p)
    q.registries.fns.length = 3 ∧ (∀ g ∈ q.registries.fns, ((q.formals g).map q.name).Nodup) ∧
      ∃ g ∈ q.registries.fns, (q.formals g).length = 2 := by
  intro p q
  have shape : succeeds (flatten p) = true ∧ q.registries.fns.length = 3 ∧
      (∃ g ∈ q.registries.fns, (q.formals g).length = 2) ∧ ∀ g ∈ q.registries.fns,
        (((Captures.compute p (.build p)).of g).map p.name).Nodup ∧
          ∀ v ∈ (Captures.compute p (.build p)).of g, ∀ w ∈ p.formals g, p.name v ≠ p.name w := by
    decide +kernel
  obtain ⟨success, three, two, apart⟩ := shape
  obtain ⟨result, converts⟩ := exists_ok_of_succeeds success
  obtain ⟨_, _, formals⟩ := flatten_names (.inr Surface.nestedLinked_linked) converts
  exact ⟨three, fun g member => (formals g member).2.2.mpr (apart g member), two⟩

/-- The function `g` has a formal `x` and captures another `x` on the way to `h`, and a second `h`
stands in another function. -/
def clashTree : Surface.ProgramTree where
  modules := [{ name := "main", items := [
    .fn .nowhere "f" [] none .value [] [
      .var .nowhere "x" (some "int") none [],
      .fn .nowhere "h" [] none .value [] [.assign .nowhere (.name "x") (.int 1)],
      .fn .nowhere "g" [{ name := "x", ty := some "int" }] none .value []
        [.expr .nowhere (.call "h" [])]],
    .fn .nowhere "k" [] none .value [] [.fn .nowhere "h" [] none .value [] []]] }]

@[irreducible] def clashProgram : Program := clashTree.lower.toOption.getD .empty

/-- `clashProgram` with its call lists. -/
@[irreducible] def clashLinked : Program :=
  (left (Calls.computeSites { program := clashProgram })).program

theorem clashLinked_linked : Linked clashLinked := by
  have lowers : clashTree.lower = .ok clashProgram := by
    unfold clashProgram
    exact Surface.ProgramTree.lower_eq_ok (by decide +kernel)
  have success : succeeds (Calls.computeSites { program := clashProgram }) = true := by
    decide +kernel
  obtain ⟨stats, sites⟩ := exists_ok_of_succeeds success
  unfold clashLinked
  exact .intro lowers sites

/-- Closure conversion may put two functions of one name into one block, and give a function two
formals of one name. -/
theorem names_may_clash :
    (¬ ∀ (p q : Program) (result : TransformResult), Linked p → flatten p = .ok result q →
      ∀ f g d e b, q.Placed f d → q.Placed g e → d ∈ q.children b → e ∈ q.children b →
        q.name f = q.name g → f = g) ∧
    ¬ ∀ (p q : Program) (result : TransformResult), Linked p → flatten p = .ok result q →
      ∀ g ∈ q.registries.fns, ((q.formals g).map q.name).Nodup := by
  have linked := clashLinked_linked
  let q := left (flatten clashLinked)
  have shape : succeeds (flatten clashLinked) = true ∧
      (q.isAttached ⟨7⟩ = true ∧ (q.kind ⟨7⟩).isFnDef = true ∧
        (q.kind ⟨7⟩).defines? = some ⟨3⟩ ∧ ⟨7⟩ ∈ q.children ⟨0⟩) ∧
      (q.isAttached ⟨15⟩ = true ∧ (q.kind ⟨15⟩).isFnDef = true ∧
        (q.kind ⟨15⟩).defines? = some ⟨7⟩ ∧ ⟨15⟩ ∈ q.children ⟨0⟩) ∧
      q.name ⟨3⟩ = q.name ⟨7⟩ ∧ ⟨4⟩ ∈ q.registries.fns ∧
      ¬ ((q.formals ⟨4⟩).map q.name).Nodup := by
    decide +kernel
  obtain ⟨success, ⟨thereH, fnH, definesH, childH⟩, ⟨thereI, fnI, definesI, childI⟩, same, member,
    twice⟩ := shape
  obtain ⟨result, converts⟩ := exists_ok_of_succeeds success
  obtain ⟨converted, _⟩ := (flatten_converts linked.settled linked.lexical).of_ok converts
  have attached {n : NodeId} (there : q.isAttached n = true) : q.Reached n :=
    converted.settled.sound.isAttached_iff.mp there
  refine ⟨fun all => ?_, fun all => twice (all _ _ result linked converts ⟨4⟩ member)⟩
  have equal := all _ _ result linked converts ⟨3⟩ ⟨7⟩ ⟨7⟩ ⟨15⟩ ⟨0⟩ ⟨attached thereH, fnH, definesH⟩
    ⟨attached thereI, fnI, definesI⟩ childH childI same
  cases equal

end Closure

end MiddleEnd
