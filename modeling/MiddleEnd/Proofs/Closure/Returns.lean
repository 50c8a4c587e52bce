import MiddleEnd.Proofs.Closure.Coverage
import MiddleEnd.Proofs.Surface.Returns

/-! Closure conversion changes nothing in which functions miss a return. -/

namespace MiddleEnd

open Outcome

theorem Check.onlyDefaultDefines_eq (p : Program) (f : SymbolId) : onlyDefaultDefines p f =
    (p.hasFlag f .specifiedReturnType &&
      ((retVar? p f).bind fun v => (p.symbol v).decl).any fun d => (p.kind d).isValued) := by
  unfold onlyDefaultDefines
  cases (retVar? p f).bind fun v => (p.symbol v).decl with
  | none => rfl
  | some d =>
    cases kind : p.kind d with
    | define sym value => cases value <;> simp [kind, NodeKind.isValued]
    | _ => simp [kind, NodeKind.isValued]

namespace Closure

open Program Check

variable {p q : Program} {f v : SymbolId}

theorem uncaptured_of_returning (settled : p.Settled) (lexical : p.Lexical)
    (returning : p.Returning) (isRet : retVar? p f = some v) :
    Uncaptured p ((Captures.compute p (.build p)).of f) v := by
  obtain ⟨_, d, defines, scope⟩ := returning f v isRet
  have known := known_of_kind fun isBrk => by
    rw [isBrk] at defines
    cases defines
  refine ⟨settled.sound.bound_known defines, fun captured => ?_, d, known, defines⟩
  have outer := Captures.isOuterVar_of_mem captured
  cases declared : p.declaringFn? v with
  | none => simp [isOuterVar, declared] at outer
  | some owner =>
    obtain ⟨d', reached, defines', _⟩ := home_of_captured settled lexical captured declared
    cases settled.sound.bound_unique defines defines'
    have scopeV := (Option.filter_eq_some_iff.mp declared).1
    rw [declaringScope?, settled.sound.bound defines, Option.bind_some] at scopeV
    have same : owner = f := Option.some.inj (scopeV.symm.trans (scope reached))
    simp [isOuterVar, declared, same] at outer

section

variable {t start : Program} {d : NodeId} {passed : List NodeId} {first w : Rework}
  (settled : p.Settled) (transforms : Transforms p (.compute p (.build p)) passed first start w t q)

include transforms

theorem Transforms.lasts (known : v.index < p.symbols.size) : (p.symbol v).Lasts (q.symbol v) := by
  have supplying := transforms.supplying.retains
  exact (supplying.lasts known).trans <|
    (transforms.underway.retains.lasts (known.trans_le supplying.symbols_size)).trans
      (transforms.moved.lasts v)

theorem Transforms.span {n : NodeId} (known : n.index < p.nodes.size) : q.span n = p.span n := by
  have supplying := transforms.supplying.retains
  rw [transforms.moved.span, transforms.underway.retains.span (known.trans_le supplying.size),
    supplying.span known]

theorem Transforms.retVar? (known : f.index < p.symbols.size) :
    Check.retVar? q f = Check.retVar? p f :=
  Check.retVar?_of_bare (transforms.lasts known).kind

include settled

theorem Transforms.placed (placed : p.Placed f d) : t.Placed f d :=
  transforms.underway.evolved.stage.frame.placed settled.sound placed

variable (settledQ : q.Settled)

include settledQ

/-- The body of a function stays its body. -/
theorem Transforms.fnBody? (placed : p.Placed f d) :
    ∃ body, p.fnBody? f = some body ∧ q.fnBody? f = some body ∧ Within p f body ∧
      w.swap body = body := by
  have evolved := transforms.underway.evolved
  have placedT := transforms.placed settled placed
  obtain ⟨_, formals, body, kind, found⟩ := settled.fnBody?_eq placed
  obtain ⟨_, formalsQ, bodyQ, kindQ, foundQ⟩ := settledQ.fnBody?_eq (transforms.moved.placed placedT)
  have live := settled.sound.live_of_reached placed.1
  have child : body ∈ p.children d := by simp [children, kind, NodeKind.children]
  have plain : (p.kind d).isExpr = false := by rw [kind]; rfl
  have within : Within p f body := by
    refine ⟨⟨d, placed.1, plain, child⟩, ?_⟩
    rw [settled.sound.scope_below placed.1 child, scopeBelow_eq, placed.2.1, if_pos rfl, placed.2.2]
  have fits : p.Fits body .block := (settled.lawful live).fits (by simp [kind, NodeKind.slots])
  have isBlock : (p.kind body).isBlock = true := fits
  have swap := within.swap_of_plain evolved (by
    cases kindB : p.kind body <;> simp [kindB, NodeKind.isBlock] at isBlock
    rfl)
  have kindT := evolved.reworked.kind live.known (evolved.sound.live_of_reached placedT.1)
    (by rw [kind]; rfl)
  rw [kind, Rework.kind, swap] at kindT
  have same := transforms.moved.order.kind (n := d) (by rw [kindT]; rfl)
  rw [kindQ, kindT] at same
  cases same
  exact ⟨body, found, foundQ, within, swap⟩

theorem Transforms.missingReturn (placed : p.Placed f d) :
    Finding.missingReturn (q.name f) ((q.declSpan? f).getD .nowhere) =
      .missingReturn (p.name f) ((p.declSpan? f).getD .nowhere) := by
  have placedQ := transforms.moved.placed (transforms.placed settled placed)
  have name : q.name f = p.name f := (transforms.lasts (settled.sound.bound_known placed.2.2)).name
  rw [name, declSpan?, declSpan?, settled.sound.bound placed.2.2, settledQ.sound.bound placedQ.2.2,
    Option.map_some, Option.map_some, transforms.span (settled.sound.live_of_reached placed.1).known]

/-- The functions are those from before, maybe in another order. -/
theorem Transforms.fns_perm : q.registries.fns.Perm p.registries.fns := by
  refine (List.perm_ext_iff_of_nodup (settledQ.sound.exact.distinct.entries .fn)
    (settled.sound.exact.distinct.entries .fn)).mpr fun f => ?_
  have stage := transforms.underway.evolved.stage
  constructor
  · intro member
    obtain ⟨d, placed⟩ := settledQ.placed_of_registered member
    exact settled.registered_of_placed
      (Stage.placed_of_placed stage ((Relocates.placed_iff transforms.moved).mp placed))
  · intro member
    obtain ⟨d, placed⟩ := settled.placed_of_registered member
    exact settledQ.registered_of_placed
      (transforms.moved.placed (transforms.placed settled placed))

variable (returning : p.Returning)

include returning

theorem Transforms.onlyDefaultDefines (known : f.index < p.symbols.size) :
    Check.onlyDefaultDefines q f = Check.onlyDefaultDefines p f := by
  have flag : q.hasFlag f .specifiedReturnType = p.hasFlag f .specifiedReturnType :=
    (transforms.lasts known).flags _ (by decide) (by decide)
  rw [onlyDefaultDefines_eq, onlyDefaultDefines_eq, flag, transforms.retVar? known]
  cases isRet : Check.retVar? p f with
  | none => rfl
  | some v =>
    obtain ⟨_, d, defines, _⟩ := returning f v isRet
    have evolved := transforms.underway.evolved
    have knownD := known_of_kind fun isBrk => by
      rw [isBrk] at defines
      cases defines
    have definesT := (evolved.stage.frame.defines knownD).trans defines
    have declared := settledQ.sound.bound ((transforms.moved.head d).defines.trans definesT)
    have plainBlock : (t.kind d).isBlock = false := by
      cases kind : t.kind d <;> simp_all [NodeKind.defines?, NodeKind.isBlock]
    have noRef : (p.kind d).symRef? = none := by
      cases kind : p.kind d <;> simp_all [NodeKind.defines?, NodeKind.symRef?]
    simp only [Option.bind_some, settled.sound.bound defines, declared, Option.any_some,
      transforms.moved.order.kind plainBlock, evolved.reworked.valued knownD noRef]

variable (lexical : p.Lexical)

include lexical

/-- A function defines its return value as often as before. -/
theorem Transforms.definedOnAllPaths (placed : p.Placed f d) :
    Check.definedOnAllPaths q f = Check.definedOnAllPaths p f := by
  have underway := transforms.underway
  have known := settled.sound.bound_known placed.2.2
  obtain ⟨body, found, foundQ, within, swap⟩ := transforms.fnBody? settled settledQ placed
  have reachedT := swap ▸ within.reached_swap underway.evolved
  have liveQ := settledQ.sound.live_of_reached (transforms.moved.reached.mpr reachedT)
  have plain (v : SymbolId) (isRet : Check.retVar? p f = some v) : (t.symbol v).isType = false := by
    obtain ⟨sort, d, defines, _⟩ := returning f v isRet
    have knownV := settled.sound.bound_known defines
    rw [← Bool.not_eq_true, Symbol.isType_iff, underway.evolved.stage.frame.sort knownV, sort]
    simp
  let depth := p.nodes.size + q.nodes.size + 1
  rw [definedOnAllPaths_eq settledQ.toTidy foundQ liveQ depth (by omega),
    definedOnAllPaths_eq settled.toTidy found (settled.sound.live_of_reached within.reached) depth
      (by omega), transforms.retVar? known,
    tally_of_relocates transforms.moved plain]
  have counts := tally_of_converting settled transforms.supplying (fun _ _ => Captures.known_of_mem)
    transforms.run (fun v => uncaptured_of_returning settled lexical returning) depth within
  rw [swap] at counts
  rw [counts]

/-- A function misses a return if it did. -/
theorem Transforms.missesReturn (placed : p.Placed f d) :
    Check.missesReturn q f = Check.missesReturn p f := by
  have known := settled.sound.bound_known placed.2.2
  have lasts := transforms.lasts known
  rw [Check.missesReturn, Check.missesReturn, lasts.ty, lasts.flags .iterator (by decide) (by decide),
    lasts.flags .external (by decide) (by decide),
    transforms.definedOnAllPaths settled settledQ returning lexical placed,
    transforms.onlyDefaultDefines settled settledQ returning known]

theorem Transforms.returnCoverage : (Check.returnCoverage q).Perm (Check.returnCoverage p) := by
  have placed {f : SymbolId} (member : f ∈ p.registries.fns) := settled.placed_of_registered member
  have fns := transforms.fns_perm settled settledQ
  have misses : q.registries.fns.filter (Check.missesReturn q) =
      q.registries.fns.filter (Check.missesReturn p) := by
    refine List.filter_congr fun f member => ?_
    obtain ⟨d, placed⟩ := placed (fns.mem_iff.mp member)
    exact transforms.missesReturn settled settledQ returning lexical placed
  have findings : Check.returnCoverage q = (q.registries.fns.filter (Check.missesReturn p)).map
      fun f => .missingReturn (p.name f) ((p.declSpan? f).getD .nowhere) := by
    rw [Check.returnCoverage, misses]
    refine List.map_congr_left fun f member => ?_
    obtain ⟨d, placed⟩ := placed (fns.mem_iff.mp (List.mem_filter.mp member).1)
    exact transforms.missingReturn settled settledQ placed
  rw [findings]
  exact (fns.filter _).map _

end

/-- Closure conversion changes nothing in how often the functions of a program define their return
values, and the same functions as before miss a return. Only the order in which they are reported may
be another. -/
theorem flatten_keeps_coverage {result : TransformResult}
    (lowered : (∃ tree : Surface.ProgramTree, tree.lower = .ok p) ∨ Linked p)
    (converts : flatten p = .ok result q) :
    (∀ f ∈ p.registries.fns, Check.definedOnAllPaths q f = Check.definedOnAllPaths p f ∧
      Check.missesReturn q f = Check.missesReturn p f) ∧
    q.registries.fns.Perm p.registries.fns ∧
    (Check.returnCoverage q).Perm (Check.returnCoverage p) := by
  obtain ⟨convertible, returning⟩ : Convertible p ∧ p.Returning := by
    rcases lowered with ⟨tree, lowered⟩ | linked
    · exact ⟨convertible_of_lowered lowered, Surface.ProgramTree.lowered_returning lowered⟩
    · exact ⟨convertible_of_linked linked, linked.returning⟩
  have settled := convertible.settled
  have lexical := convertible.lexical
  have settledQ := ((flatten_converts settled lexical).of_ok converts).1.settled
  rcases (flatten_transforming convertible).of_ok converts with
    ⟨_, rfl⟩ | ⟨plans, passed, first, start, w, t, _, _, _, transforms⟩
  · exact ⟨fun _ _ => ⟨rfl, rfl⟩, .refl _, .refl _⟩
  · refine ⟨fun f member => ?_, transforms.fns_perm settled settledQ,
      transforms.returnCoverage settled settledQ returning lexical⟩
    obtain ⟨d, placed⟩ := settled.placed_of_registered member
    exact ⟨transforms.definedOnAllPaths settled settledQ returning lexical placed,
      transforms.missesReturn settled settledQ returning lexical placed⟩

/-- The function `store` stores into the variable around it, and gives a value back only sometimes. -/
def sometimesTree : Surface.ProgramTree where
  modules := [{ name := "main", items := [
    .fn .nowhere "outer" [] (some "int") .value [] [
      .var .nowhere "result" (some "int") none [.returnValue],
      .var .nowhere "x" (some "int") (some (.int 1)) [],
      .fn .nowhere "store" [] (some "int") .value [] [
        .var .nowhere "stored" (some "int") none [.returnValue],
        .assign .nowhere (.name "x") (.int 2),
        .cond .nowhere (.bool true) [.assign .nowhere (.name "stored") (.name "x")] none],
      .assign .nowhere (.name "result") (.call "store" [])]] }]

@[irreducible] def sometimesProgram : Program := sometimesTree.lower.toOption.getD .empty

/-- `sometimesProgram` with its call lists. -/
@[irreducible] def sometimesLinked : Program :=
  (left (Calls.computeSites { program := sometimesProgram })).program

theorem sometimesLinked_linked : Linked sometimesLinked := by
  have lowers : sometimesTree.lower = .ok sometimesProgram := by
    unfold sometimesProgram
    exact Surface.ProgramTree.lower_eq_ok (by decide +kernel)
  have success : succeeds (Calls.computeSites { program := sometimesProgram }) = true := by
    decide +kernel
  obtain ⟨stats, sites⟩ := exists_ok_of_succeeds success
  unfold sometimesLinked
  exact .intro lowers sites

/-- When `store` has got a formal for `x`, it still misses a return, and `outer` does not. -/
theorem sometimes_covered :
    let q := left (flatten sometimesLinked)
    (⟨4⟩ : SymbolId) ∈ (Captures.compute sometimesLinked (.build sometimesLinked)).of ⟨2⟩ ∧
      (Check.definedOnAllPaths q ⟨1⟩ = 1 ∧ Check.missesReturn q ⟨1⟩ = false) ∧
      (Check.definedOnAllPaths q ⟨2⟩ = 0 ∧ Check.missesReturn q ⟨2⟩ = true) ∧
      q.registries.fns.Perm sometimesLinked.registries.fns ∧
      (Check.returnCoverage q).Perm (Check.returnCoverage sometimesLinked) := by
  intro q
  have success : succeeds (flatten sometimesLinked) = true := by decide +kernel
  obtain ⟨result, converts⟩ := exists_ok_of_succeeds success
  obtain ⟨same, fns, coverage⟩ := flatten_keeps_coverage (.inr sometimesLinked_linked) converts
  have outer := same ⟨1⟩ (by decide +kernel)
  have store := same ⟨2⟩ (by decide +kernel)
  refine ⟨by decide +kernel, ⟨?_, ?_⟩, ⟨?_, ?_⟩, fns, coverage⟩
  · exact outer.1.trans (by decide +kernel)
  · exact outer.2.trans (by decide +kernel)
  · exact store.1.trans (by decide +kernel)
  · exact store.2.trans (by decide +kernel)

end Closure

end MiddleEnd
