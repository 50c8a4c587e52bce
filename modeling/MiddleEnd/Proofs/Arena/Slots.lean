import MiddleEnd.Proofs.Arena.Lookup
import Mathlib.Data.List.Nodup

namespace MiddleEnd

/-- What a place below a node is for. -/
inductive Slot where
  | expr
  /-- The condition variable of a loop. -/
  | test
  | block
  | stmt
  /-- The definition of the index of a `for` loop. -/
  | index
  | formal
  deriving DecidableEq, Repr

namespace NodeKind

/-- The children of a node in source order, each with what its place is for. -/
def slots : NodeKind → List (Slot × NodeId)
  | symRef _ | literal _ | brk | cont | label _ | goto _ => []
  | call _ _ args => args.map (.expr, ·)
  | prim _ args => args.map (.expr, ·)
  | namedArg _ value => [(.expr, value)]
  | block stmts => stmts.map (.stmt, ·)
  | assign target value => [(.expr, target), (.expr, value)]
  | cond test thenBlock elseBlock =>
    (.expr, test) :: (.block, thenBlock) :: elseBlock.toList.map (.block, ·)
  | loop test body _ => [(.test, test), (.block, body)]
  | forLoop index iterable body => [(.index, index), (.expr, iterable), (.block, body)]
  | ret value => value.toList.map (.expr, ·)
  | define _ value => value.toList.map (.expr, ·)
  | fnDef _ formals body => formals.map (.formal, ·) ++ [(.block, body)]

/-- What the places of the child list are for. -/
def listSlot : NodeKind → Slot
  | block _ => .stmt
  | fnDef .. => .formal
  | _ => .expr

theorem children_eq_slots (kind : NodeKind) : kind.children = kind.slots.map Prod.snd := by
  cases kind <;> simp [children, slots, Function.comp_def]

theorem mem_children_iff {kind : NodeKind} {c : NodeId} :
    c ∈ kind.children ↔ ∃ slot, (slot, c) ∈ kind.slots := by
  rw [children_eq_slots]
  simp

/-- Two nodes of one construct that differ in their children only. -/
structure SameHead (k k' : NodeKind) : Prop where
  tag : k'.tag = k.tag
  defines : k'.defines? = k.defines?
  callee : k'.callee? = k.callee?
  symRef : k'.symRef? = k.symRef?

theorem SameHead.refl (k : NodeKind) : k.SameHead k := ⟨rfl, rfl, rfl, rfl⟩

theorem isCall_iff {k : NodeKind} : k.isCall = true ↔ k.tag = .call := by
  cases k <;> simp [isCall, tag]

theorem exists_of_isCall {k : NodeKind} (call : k.isCall = true) :
    ∃ callee name args, k = .call callee name args := by
  cases k <;> simp [isCall] at call ⊢

theorem isBlock_iff {k : NodeKind} : k.isBlock = true ↔ k.tag = .block := by
  cases k <;> simp [isBlock, tag]

theorem isFnDef_iff {k : NodeKind} : k.isFnDef = true ↔ k.tag = .fnDef := by
  cases k <;> simp [isFnDef, tag]

theorem isCall_of_tag {k k' : NodeKind} (same : k'.tag = k.tag) : k'.isCall = k.isCall := by
  rw [Bool.eq_iff_iff, isCall_iff, isCall_iff, same]

theorem isBlock_of_tag {k k' : NodeKind} (same : k'.tag = k.tag) : k'.isBlock = k.isBlock := by
  rw [Bool.eq_iff_iff, isBlock_iff, isBlock_iff, same]

theorem isFnDef_of_tag {k k' : NodeKind} (same : k'.tag = k.tag) : k'.isFnDef = k.isFnDef := by
  rw [Bool.eq_iff_iff, isFnDef_iff, isFnDef_iff, same]

theorem SameHead.isCall {k k' : NodeKind} (same : k.SameHead k') : k'.isCall = k.isCall :=
  isCall_of_tag same.tag

theorem SameHead.isBlock {k k' : NodeKind} (same : k.SameHead k') : k'.isBlock = k.isBlock :=
  isBlock_of_tag same.tag

theorem SameHead.isFnDef {k k' : NodeKind} (same : k.SameHead k') : k'.isFnDef = k.isFnDef :=
  isFnDef_of_tag same.tag

/-! The child list. -/

theorem withChildList_head (k : NodeKind) (ids : List NodeId) : k.SameHead (k.withChildList ids) := by
  cases k <;> exact ⟨rfl, rfl, rfl, rfl⟩

theorem mem_slots_withChildList {k : NodeKind} {ids ids' : List NodeId} {node c : NodeId}
    {slot : Slot} (list : k.childList? = some ids) (grown : ids'.Perm (node :: ids)) :
    (slot, c) ∈ (k.withChildList ids').slots ↔
      (slot, c) ∈ k.slots ∨ slot = k.listSlot ∧ c = node := by
  have member (a : NodeId) : a ∈ ids' ↔ a = node ∨ a ∈ ids := by
    rw [grown.mem_iff, List.mem_cons]
  cases k <;> simp only [childList?, Option.some.injEq, reduceCtorEq] at list <;> subst list <;>
    simp [withChildList, slots, listSlot, member] <;> grind

theorem mem_children_withChildList {k : NodeKind} {ids ids' : List NodeId} {node c : NodeId}
    (list : k.childList? = some ids) (grown : ids'.Perm (node :: ids)) :
    c ∈ (k.withChildList ids').children ↔ c ∈ k.children ∨ c = node := by
  simp only [mem_children_iff, mem_slots_withChildList list grown]
  constructor
  · rintro ⟨slot, old | ⟨_, new⟩⟩
    · exact .inl ⟨slot, old⟩
    · exact .inr new
  · rintro (⟨slot, old⟩ | new)
    · exact ⟨slot, .inl old⟩
    · exact ⟨_, .inr ⟨rfl, new⟩⟩

theorem withChildList_nodup {k : NodeKind} {ids ids' : List NodeId} {node : NodeId}
    (list : k.childList? = some ids) (grown : ids'.Perm (node :: ids))
    (distinct : k.children.Nodup) (new : node ∉ k.children) :
    (k.withChildList ids').children.Nodup := by
  have perm : (k.withChildList ids').children.Perm (node :: k.children) := by
    cases k <;> simp only [childList?, Option.some.injEq, reduceCtorEq] at list <;> subst list
    case fnDef => exact grown.append_right _
    all_goals exact grown
  exact perm.nodup_iff.mpr (List.nodup_cons.mpr ⟨new, distinct⟩)

/-! Putting one child in the place of another. -/

theorem substFirst_of_not_mem {old new : NodeId} {ids : List NodeId} (missing : old ∉ ids) :
    substFirst old new ids = ids := by
  induction ids with
  | nil => rfl
  | cons id rest ih =>
    rw [List.mem_cons, not_or] at missing
    rw [substFirst, if_neg (Ne.symm missing.1), ih missing.2]

theorem substFirst_eq_map {old new : NodeId} {ids : List NodeId} (distinct : ids.Nodup) :
    substFirst old new ids = ids.map fun id => if id = old then new else id := by
  induction ids with
  | nil => rfl
  | cons id rest ih =>
    obtain ⟨fresh, distinct⟩ := List.nodup_cons.mp distinct
    by_cases same : id = old
    · subst same
      rw [substFirst, if_pos rfl, List.map_cons, if_pos rfl, ← ih distinct,
        substFirst_of_not_mem fresh]
    · rw [substFirst, if_neg same, List.map_cons, if_neg same, ih distinct]

theorem replaceChild_head (k : NodeKind) (old new : NodeId) :
    k.SameHead (k.replaceChild old new) := by
  cases k <;> simp only [replaceChild] <;> (repeat' split) <;> exact ⟨rfl, rfl, rfl, rfl⟩

/-- In a node that lists no child twice, the new child stands wherever the old one did. -/
theorem slots_replaceChild {k : NodeKind} {old new : NodeId} (distinct : k.children.Nodup) :
    (k.replaceChild old new).slots =
      k.slots.map fun (slot, c) => (slot, if c = old then new else c) := by
  cases k with
  | call callee name args =>
    have list : args.Nodup := distinct
    simp [replaceChild, slots, substFirst_eq_map list]
  | prim op args =>
    have list : args.Nodup := distinct
    simp [replaceChild, slots, substFirst_eq_map list]
  | block stmts =>
    have list : stmts.Nodup := distinct
    simp [replaceChild, slots, substFirst_eq_map list]
  | namedArg name value => simp [replaceChild, slots]
  | assign target value =>
    by_cases first : target = old <;> by_cases second : value = old <;>
      simp_all [replaceChild, slots, children]
  | cond test thenBlock elseBlock =>
    by_cases first : test = old <;> by_cases second : thenBlock = old <;> cases elseBlock with
    | none => simp_all [replaceChild, slots, children]
    | some other =>
      by_cases third : other = old <;> simp_all [replaceChild, slots, children]
  | loop test body testFirst =>
    by_cases first : test = old <;> by_cases second : body = old <;>
      simp_all [replaceChild, slots, children]
  | forLoop index iterable body =>
    by_cases first : index = old <;> by_cases second : iterable = old <;>
      by_cases third : body = old <;> simp_all [replaceChild, slots, children]
  | ret value =>
    cases value with
    | none => rfl
    | some value => by_cases same : value = old <;> simp [replaceChild, slots, same]
  | define sym value =>
    cases value with
    | none => rfl
    | some value => by_cases same : value = old <;> simp [replaceChild, slots, same]
  | fnDef sym formals body =>
    obtain ⟨list, _, apart⟩ := List.nodup_append.mp distinct
    by_cases there : old ∈ formals
    · have other : body ≠ old := fun same => apart old there body (by simp) same.symm
      simp [replaceChild, slots, there, other, substFirst_eq_map list]
    · have kept : formals.map (fun c => ((.formal : Slot), if c = old then new else c)) =
          formals.map (fun c => (.formal, c)) := by
        refine List.map_congr_left fun c member => ?_
        rw [if_neg fun same : c = old => there (same ▸ member)]
      simp [replaceChild, slots, there, Function.comp_def, kept]
  | _ => simp [replaceChild, slots]

theorem children_replaceChild {k : NodeKind} {old new : NodeId} (distinct : k.children.Nodup) :
    (k.replaceChild old new).children = k.children.map fun c => if c = old then new else c := by
  rw [children_eq_slots, slots_replaceChild distinct, children_eq_slots, List.map_map, List.map_map]
  rfl

theorem mem_children_replaceChild {k : NodeKind} {old new c : NodeId}
    (distinct : k.children.Nodup) (there : old ∈ k.children) :
    c ∈ (k.replaceChild old new).children ↔ c ∈ k.children ∧ old ≠ c ∨ new = c := by
  rw [children_replaceChild distinct, List.mem_map]
  constructor
  · rintro ⟨d, member, rfl⟩
    by_cases same : d = old
    · exact .inr (by rw [if_pos same])
    · exact .inl ⟨by rwa [if_neg same], by rw [if_neg same]; exact Ne.symm same⟩
  · rintro (⟨member, different⟩ | rfl)
    · exact ⟨c, member, by rw [if_neg (Ne.symm different)]⟩
    · exact ⟨old, there, by rw [if_pos rfl]⟩

theorem replaceChild_nodup {k : NodeKind} {old new : NodeId} (distinct : k.children.Nodup)
    (fresh : new ∉ k.children) : (k.replaceChild old new).children.Nodup := by
  rw [children_replaceChild distinct]
  refine List.Nodup.map_on (fun a ofA b ofB same => ?_) distinct
  by_cases atA : a = old <;> by_cases atB : b = old
  · rw [atA, atB]
  · rw [if_pos atA, if_neg atB] at same
    exact absurd (same ▸ ofB) fresh
  · rw [if_neg atA, if_pos atB] at same
    exact absurd (same ▸ ofA) fresh
  · rwa [if_neg atA, if_neg atB] at same

/-! Taking a child out. -/

theorem withoutChild?_head {k k' : NodeKind} {child : NodeId}
    (result : k.withoutChild? child = some k') : k.SameHead k' := by
  unfold withoutChild? at result
  cases k <;> simp only [childList?, withChildList] at result <;>
    (repeat' split at result) <;>
    simp only [Option.some.injEq, reduceCtorEq] at result <;>
    subst result <;> exact ⟨rfl, rfl, rfl, rfl⟩

theorem slots_withoutChild? {k k' : NodeKind} {child : NodeId}
    (result : k.withoutChild? child = some k') (distinct : k.children.Nodup) :
    k'.slots = k.slots.filter (·.2 ≠ child) := by
  unfold withoutChild? at result
  cases k with
  | cond test thenBlock elseBlock =>
    dsimp only at result
    split at result
    · rename_i last
      subst last
      cases result
      simp only [children, Option.toList_some, List.nodup_cons, List.mem_cons, not_or] at distinct
      simp [slots, distinct]
    · cases result
  | fnDef sym formals body =>
    simp only [childList?, withChildList] at result
    split at result
    · rename_i there
      cases result
      have other : body ≠ child := by
        rintro rfl
        exact (List.nodup_append.mp distinct).2.2 body (List.contains_iff_mem.mp there) body
          (by simp) rfl
      simp [slots, List.filter_map, Function.comp_def, other, bne, beq_eq_decide]
    · cases result
  | _ =>
    simp only [childList?, withChildList] at result
    repeat' split at result
    all_goals
      simp only [Option.some.injEq, reduceCtorEq] at result
      try subst result
    all_goals simp_all [slots, List.filter_map, Function.comp_def, bne, beq_eq_decide]

theorem children_withoutChild? {k k' : NodeKind} {child : NodeId}
    (result : k.withoutChild? child = some k') (distinct : k.children.Nodup) :
    k'.children = k.children.filter (· ≠ child) := by
  rw [children_eq_slots, slots_withoutChild? result distinct, children_eq_slots, List.filter_map]
  rfl

end NodeKind

end MiddleEnd
