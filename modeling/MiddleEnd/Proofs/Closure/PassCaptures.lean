import MiddleEnd.Proofs.Closure.Capture
import MiddleEnd.Proofs.Closure.ExtendFunction

namespace MiddleEnd

open Outcome

namespace Closure

open Program TransformM

variable {base p : Program} {pending : NodeId → SymbolId → SymbolId → Prop} {E : Program → Prop}

theorem mem_usesOf (settled : p.Settled) {f var : SymbolId} {fnDef n : NodeId}
    (placed : p.Placed f fnDef) :
    n ∈ usesOf p fnDef var ↔
      p.Reached n ∧ p.scope? n = some f ∧ (p.kind n).symRef? = some var := by
  obtain ⟨reached, isFnDef, defines⟩ := placed
  have own := settled.own_iff (n := n) reached isFnDef defines
  rw [usesOf, List.mem_filter, settled.sound.forest.mem_collectOwn
    (settled.sound.live_of_reached reached), beq_iff_eq]
  constructor
  · rintro ⟨⟨held, tag⟩, ref⟩
    have different : fnDef ≠ n := by
      rintro rfl
      cases kind : p.kind fnDef <;> simp [kind, NodeKind.isFnDef, NodeKind.tag] at isFnDef tag
    obtain ⟨reachedN, scope⟩ := own.mp ⟨held, different⟩
    exact ⟨reachedN, scope, ref⟩
  · rintro ⟨reachedN, scope, ref⟩
    exact ⟨⟨(own.mpr ⟨reachedN, scope⟩).1,
      NodeKind.symRef?_isSome_iff.mp (by rw [ref]; rfl)⟩, ref⟩

/-- After a variable has got its formal, no reference of the function leads to it any more. -/
theorem captureVar_ends {f var : SymbolId} {vars : List SymbolId} {fnDef : NodeId}
    {passedOn : List NodeId} (settled : p.Settled) (placed : p.Placed f fnDef)
    (known : var.index < p.symbols.size)
    (leads : p.Leads fun n g v => pending n g v ∨ g = f ∧ v ∈ var :: vars) :
    Ends (captureVar f fnDef passedOn var) p
      (fun _ => Stage p fun n g v => pending n g v ∨ g = f ∧ v ∈ vars) E := by
  have sound := settled.sound
  have stage := Stage.refl settled leads
  unfold captureVar
  refine Ends.get_bind (ends_build_bind ?_)
  generalize symbolEq : ({ name := _, kind := SymbolKind.arg _, ty := _ } : Symbol) = sym
  have isArg : sym.kind.sort = .arg := by rw [← symbolEq]; rfl
  have live : sym.live = true := by rw [← symbolEq]
  have uncalled : sym.callers = [] := by rw [← symbolEq]; rfl
  have stage1 := stage.addSymbol live uncalled
  have undefined : (p.addSymbol sym).2.Undefined (p.addSymbol sym).1 :=
    undefined_addSymbol sound (by rw [isArg]; decide) (by rw [isArg]; decide)
  have other : (p.addSymbol sym).1 ≠ var := by
    rintro rfl
    exact Nat.lt_irrefl _ known
  have sort1 : ((p.addSymbol sym).2.symbol (p.addSymbol sym).1).kind.sort = .arg := by
    rw [symbol_addSymbol, if_pos rfl, isArg]
  generalize (p.addSymbol sym).1 = formal at *
  generalize (p.addSymbol sym).2 = p1 at *
  refine ends_build_bind ?_
  obtain ⟨sprouts, defines⟩ : Sprouts p _ p1 (fun _ => False) .define _ _ ∧ _ :=
    stage1.addDefinition undefined none nofun nofun ((p.declSpan? var).getD .nowhere)
  generalize (p1.addDefinition formal none _).1 = formalDef at *
  generalize (p1.addDefinition formal none _).2 = p2 at *
  have placed2 := sprouts.stage.frame.placed sound placed
  have sort2 : (p2.symbol formal).kind.sort = .arg :=
    (sprouts.frame.sort undefined.known).trans sort1
  have known2 := undefined.known.trans_le sprouts.frame.symbols_size
  obtain ⟨_, formals, body, kind, _⟩ := sprouts.stage.settled.fnBody?_eq placed2
  have list : (p2.kind fnDef).childList? = some formals := by
    rw [kind]
    rfl
  refine Ends.bind (ends_edit_of_exists (Q := fun _ p3 =>
    Stage p (fun n g v => pending n g v ∨ g = f ∧ v ∈ var :: vars) p3 ∧ Frame p2 p3 ∧
      p3.Home formal f)
    (sprouts.sprig.append sprouts.stage.settled.sound placed2.1 list) fun p3 result => ?_) ?_
  · obtain ⟨stage3, attached⟩ := sprouts.stage.append sprouts.sprig result
      (by
        rw [kind]
        exact ⟨sprouts.tag_eq, formal, defines, sort2⟩)
      placed2.1 fun n v g absurd => absurd.elim
    refine ⟨stage3, attached.frame, formalDef, attached.reached, attached.defines.trans defines,
      .inl ?_⟩
    rw [attached.scope, scopeBelow, kind]
  · rintro _ p3 ⟨stage3, frame3, home⟩
    refine Ends.bind (Ends.modified (Q := fun _ p4 => p4 = p3.attachFlag var .captured) rfl) ?_
    rintro _ p4 equal
    have relabel : Relabel p3 p4 := equal ▸ relabel_attachFlag var .captured
    clear equal
    have stage4 := stage3.relabel relabel
    have placed4 := stage4.frame.placed sound placed
    have known3 := known2.trans_le frame3.symbols_size
    refine Ends.get_bind ?_
    refine (redirectAll_ends stage4.settled (stage4.leads.mono ?_) ?_ other).mono
      (fun _ t kept => stage4.trans kept) fun _ => id
    · rintro n v g reached ref scope (old | ⟨rfl, member⟩)
      · exact .inl (.inl old)
      · rcases List.mem_cons.mp member with rfl | later
        · exact .inr ⟨rfl, rfl, (mem_usesOf stage4.settled placed4).mpr ⟨reached, scope, ref⟩⟩
        · exact .inl (.inr ⟨rfl, later⟩)
    · intro ref member
      obtain ⟨reached, scope, target⟩ := (mem_usesOf stage4.settled placed4).mp member
      exact
        { reached := reached
          tag := NodeKind.symRef?_isSome_iff.mp (by rw [target]; rfl)
          scope := scope
          fn := stage4.settled.isFn_of_fnDef (stage4.settled.sound.live_of_reached placed4.1)
            placed4.2.1 placed4.2.2
          known := known3.trans_le relabel.frame.symbols_size
          value := by
            rw [Symbol.isValue_iff, relabel.frame.sort known3, frame3.sort known2]
            exact .inr sort2
          home := relabel.frame.home stage3.settled.sound stage4.settled.sound home }

theorem extendFunction_ends {captures : Captures} {f : SymbolId} {fnDef : NodeId}
    {passedOn : List NodeId} (settled : p.Settled) (placed : p.Placed f fnDef)
    (known : ∀ v ∈ captures.of f, v.index < p.symbols.size)
    (leads : p.Leads fun n g v => pending n g v ∨ g = f ∧ v ∈ captures.of f) :
    Ends (extendFunction captures passedOn f) p (fun _ => Stage p pending) E := by
  unfold extendFunction
  refine Ends.get_bind ?_
  rw [(settled.fnBody?_eq placed).1]
  refine (Ends.forM (I := fun vars t => Stage p (fun n g v => pending n g v ∨ g = f ∧ v ∈ vars) t ∧
    ∀ v ∈ vars, v.index < p.symbols.size) ⟨.refl settled leads, known⟩ ?_).mono ?_ fun _ => id
  · rintro var vars t ⟨stage, known⟩
    have knownT := (known var (List.mem_cons_self ..)).trans_le stage.frame.symbols_size
    refine (captureVar_ends stage.settled (stage.frame.placed settled.sound placed) knownT
      stage.leads).mono (fun _ q kept => ⟨stage.trans kept, ?_⟩) fun _ => id
    exact fun v member => known v (List.mem_cons_of_mem _ member)
  · rintro _ t ⟨stage, _⟩
    refine { stage with leads := stage.leads.mono ?_ }
    rintro n v g _ _ _ (old | ⟨_, member⟩)
    · exact old
    · cases member

/-- The plan of a call that can be reached. -/
structure Planned (p : Program) (pending : NodeId → SymbolId → SymbolId → Prop) (plan : CallPlan) :
    Prop where
  reached : p.Reached plan.call
  isCall : (p.kind plan.call).isCall = true
  available : ∀ actual ∈ plan.actuals, Available p pending plan.call actual

/-- What is pending while the functions in `rest` still wait for their formals. -/
def Open (pending : NodeId → SymbolId → SymbolId → Prop) (captures : Captures)
    (rest : List SymbolId) (n : NodeId) (g v : SymbolId) : Prop :=
  pending n g v ∨ g ∈ rest ∧ v ∈ captures.of g

theorem passCaptures_ends {captures : Captures} {plans : List CallPlan} (settled : p.Settled)
    (leads : p.Leads (Open pending captures captures.capturing))
    (planned : ∀ plan ∈ plans, Planned p (Open pending captures captures.capturing) plan)
    (registered : ∀ f ∈ captures.capturing, f ∈ p.registries.fns)
    (known : ∀ f, ∀ v ∈ captures.of f, v.index < p.symbols.size) :
    Ends (passCaptures captures plans) p (fun _ => Stage p pending) E := by
  have sound := settled.sound
  unfold passCaptures
  refine Ends.bind (Ends.mapM (I := fun rest t =>
    Extended p (Open pending captures captures.capturing) t ∧
      ∀ plan ∈ rest, Planned p (Open pending captures captures.capturing) plan)
    ⟨⟨.refl settled leads, fun _ => id⟩, planned⟩ ?_) ?_
  · rintro plan rest t ⟨extended, planned⟩
    obtain ⟨reached, isCall, available⟩ := planned plan (List.mem_cons_self ..)
    have live := sound.live_of_reached reached
    have reachedT := extended.1.frame.kept reached (.inr (extended.2 _ live))
    refine (extendCall_ends extended.1.settled extended.1.leads reachedT ?_ ?_).mono ?_ fun _ => id
    · rw [isCall_of_tag (extended.1.frame.tag live.known)]
      exact isCall
    · exact fun actual member => (available actual member).frame reached extended
    · intro _ q kept
      exact ⟨⟨extended.1.trans kept.1, fun n liveN => kept.2 n (extended.2 n liveN)⟩,
        fun other member => planned other (List.mem_cons_of_mem _ member)⟩
  · rintro passedOn t ⟨⟨stage, _⟩, _⟩
    refine (Ends.forM (I := fun rest u => Stage p (Open pending captures rest) u ∧
      ∀ f ∈ rest, f ∈ p.registries.fns) ⟨stage, registered⟩ ?_).mono ?_ fun _ => id
    · rintro f rest u ⟨stage, registered⟩
      obtain ⟨d, placed⟩ := settled.placed_of_registered (registered f (List.mem_cons_self ..))
      have here : u.Leads fun n g v => Open pending captures rest n g v ∨ g = f ∧ v ∈ captures.of f := by
        refine stage.leads.mono ?_
        rintro n v g _ _ _ (old | ⟨member, captured⟩)
        · exact .inl (.inl old)
        · rcases List.mem_cons.mp member with rfl | later
          · exact .inr ⟨rfl, captured⟩
          · exact .inl (.inr ⟨later, captured⟩)
      refine (extendFunction_ends stage.settled (stage.frame.placed sound placed)
        (fun v member => (known f v member).trans_le stage.frame.symbols_size) here).mono ?_ fun _ => id
      exact fun _ q kept => ⟨stage.trans kept,
        fun g member => registered g (List.mem_cons_of_mem _ member)⟩
    · rintro _ u ⟨stage, _⟩
      refine { stage with leads := stage.leads.mono ?_ }
      rintro n v g _ _ _ (old | ⟨member, _⟩)
      · exact old
      · cases member

end Closure

end MiddleEnd
