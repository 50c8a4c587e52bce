import MiddleEnd.Proofs.Arena.Spans
import MiddleEnd.Proofs.Closure.Lasting
import MiddleEnd.Proofs.Closure.ExtendFunction

namespace MiddleEnd

namespace NodeKind

/-- Puts `f c` in the place of every child `c`. -/
def mapChildren (f : NodeId → NodeId) : NodeKind → NodeKind
  | call callee name args => call callee name (args.map f)
  | prim op args => prim op (args.map f)
  | namedArg name value => namedArg name (f value)
  | block stmts => block (stmts.map f)
  | assign target value => assign (f target) (f value)
  | cond test thenBlock elseBlock => cond (f test) (f thenBlock) (elseBlock.map f)
  | loop test body testFirst => loop (f test) (f body) testFirst
  | forLoop index iterable body => forLoop (f index) (f iterable) (f body)
  | ret value => ret (value.map f)
  | define sym value => define sym (value.map f)
  | fnDef sym formals body => fnDef sym (formals.map f) (f body)
  | other => other

theorem mapChildren_of_fixed {f : NodeId → NodeId} {k : NodeKind}
    (fixed : ∀ c ∈ k.children, f c = c) : k.mapChildren f = k := by
  have list {ids : List NodeId} (fixed : ∀ c ∈ ids, f c = c) : ids.map f = ids := by
    rw [List.map_congr_left fixed, List.map_id']
  have option {id : Option NodeId} (fixed : ∀ c ∈ id.toList, f c = c) : id.map f = id := by
    cases id with
    | none => rfl
    | some c => rw [Option.map_some, fixed c (by simp)]
  cases k with
  | call callee name args => exact congrArg _ (list fixed)
  | prim op args => exact congrArg _ (list fixed)
  | block stmts => exact congrArg _ (list fixed)
  | ret value => exact congrArg _ (option fixed)
  | define sym value => exact congrArg _ (option fixed)
  | cond test thenBlock elseBlock =>
    rw [mapChildren, option fun c member => fixed c (by simp [children, Option.mem_toList.mp member]),
      fixed test (by simp [children]), fixed thenBlock (by simp [children])]
  | fnDef sym formals body =>
    rw [mapChildren, list fun c member => fixed c (List.mem_append_left _ member),
      fixed body (by simp [children])]
  | namedArg | assign | loop | forLoop => simp_all [mapChildren, children]
  | _ => rfl

/-- Does the node give what it defines a value? -/
def isValued : NodeKind → Bool
  | define _ (some _) => true
  | _ => false

theorem isValued_withChildList (k : NodeKind) (ids : List NodeId) :
    (k.withChildList ids).isValued = k.isValued := by
  cases k <;> rfl

theorem isValued_replaceChild (k : NodeKind) (old new : NodeId) :
    (k.replaceChild old new).isValued = k.isValued := by
  cases k with
  | define sym value =>
    cases value with
    | none => simp [replaceChild, isValued]
    | some value => by_cases same : value = old <;> simp [replaceChild, isValued, same]
  | assign | cond | loop | forLoop | fnDef =>
    rw [replaceChild]
    repeat' split
    all_goals rfl
  | _ => rfl

/-- In a node that lists no child twice, replacing a child is replacing it wherever it stands. -/
theorem replaceChild_eq_mapChildren {k : NodeKind} {old new : NodeId} (distinct : k.children.Nodup) :
    k.replaceChild old new = k.mapChildren fun c => if c = old then new else c := by
  cases k with
  | call callee name args =>
    have list : args.Nodup := distinct
    rw [replaceChild, substFirst_eq_map list, mapChildren]
  | prim op args =>
    have list : args.Nodup := distinct
    rw [replaceChild, substFirst_eq_map list, mapChildren]
  | block stmts =>
    have list : stmts.Nodup := distinct
    rw [replaceChild, substFirst_eq_map list, mapChildren]
  | fnDef sym formals body =>
    obtain ⟨list, _, apart⟩ := List.nodup_append.mp distinct
    by_cases there : old ∈ formals
    · have other : body ≠ old := fun same => apart old there body (by simp) same.symm
      simp [replaceChild, mapChildren, there, other, substFirst_eq_map list]
    · have kept : formals.map (fun c => if c = old then new else c) = formals := by
        rw [← substFirst_eq_map list, substFirst_of_not_mem there]
      simp [replaceChild, mapChildren, there, kept]
  | cond test thenBlock elseBlock =>
    by_cases first : test = old <;> by_cases second : thenBlock = old <;> cases elseBlock with
    | none => simp_all [replaceChild, mapChildren, children]
    | some other => by_cases third : other = old <;> simp_all [replaceChild, mapChildren, children]
  | ret value =>
    cases value with
    | none => rfl
    | some value => by_cases same : value = old <;> simp [replaceChild, mapChildren, same]
  | define sym value =>
    cases value with
    | none => rfl
    | some value => by_cases same : value = old <;> simp [replaceChild, mapChildren, same]
  | assign target value =>
    by_cases first : target = old <;> by_cases second : value = old <;>
      simp_all [replaceChild, mapChildren, children]
  | loop test body testFirst =>
    by_cases first : test = old <;> by_cases second : body = old <;>
      simp_all [replaceChild, mapChildren, children]
  | forLoop index iterable body =>
    by_cases first : index = old <;> by_cases second : iterable = old <;>
      by_cases third : body = old <;> simp_all [replaceChild, mapChildren, children]
  | namedArg name value => simp [replaceChild, mapChildren]
  | _ => rfl

end NodeKind

/-- What has become of the nodes of a program: which node took the place of each, which statements
came in front of it, and which children came at its end. -/
structure Rework where
  swap : NodeId → NodeId
  front : NodeId → List NodeId
  added : NodeId → List NodeId

namespace Rework

/-- Nothing has changed. -/
def unchanged : Rework where
  swap := id
  front _ := []
  added _ := []

/-- What the node `n` has become, from what it was. -/
def kind (w : Rework) (n : NodeId) : NodeKind → NodeKind
  | .call callee name args => .call callee name (args.map w.swap ++ w.added n)
  | .fnDef sym formals body => .fnDef sym (formals.map w.swap ++ w.added n) (w.swap body)
  | .block stmts => .block (stmts.flatMap fun s => w.front s ++ [w.swap s])
  | other => other.mapChildren w.swap

/-- One more child at the end of `owner`. -/
def add (w : Rework) (owner node : NodeId) : Rework :=
  { w with added := Function.update w.added owner (w.added owner ++ [node]) }

/-- One more statement directly in front of `anchor`. -/
def insert (w : Rework) (anchor node : NodeId) : Rework :=
  { w with front := Function.update w.front anchor (w.front anchor ++ [node]) }

/-- The node `new` in the place of `old`. -/
def replace (w : Rework) (old new : NodeId) : Rework :=
  { w with swap := fun n => if w.swap n = old then new else w.swap n }

section

variable (w : Rework) (a b : NodeId)

@[simp] theorem swap_add : (w.add a b).swap = w.swap := rfl

@[simp] theorem front_add : (w.add a b).front = w.front := rfl

@[simp] theorem added_add_self : (w.add a b).added a = w.added a ++ [b] := Function.update_self ..

@[simp] theorem swap_insert : (w.insert a b).swap = w.swap := rfl

@[simp] theorem added_insert : (w.insert a b).added = w.added := rfl

@[simp] theorem front_insert_self : (w.insert a b).front a = w.front a ++ [b] :=
  Function.update_self ..

@[simp] theorem front_replace : (w.replace a b).front = w.front := rfl

@[simp] theorem added_replace : (w.replace a b).added = w.added := rfl

variable {a} {c : NodeId} (different : c ≠ a)

include different

theorem added_add_of_ne : (w.add a b).added c = w.added c := Function.update_of_ne different ..

theorem front_insert_of_ne : (w.insert a b).front c = w.front c := Function.update_of_ne different ..

end

theorem swap_replace_of_eq {w : Rework} {n old new : NodeId} (same : w.swap n = old) :
    (w.replace old new).swap n = new :=
  if_pos same

theorem swap_replace_of_ne {w : Rework} {n old new : NodeId} (other : w.swap n ≠ old) :
    (w.replace old new).swap n = w.swap n :=
  if_neg other

theorem kind_unchanged (n : NodeId) (k : NodeKind) : unchanged.kind n k = k := by
  cases k <;> simp [kind, unchanged, NodeKind.mapChildren]

theorem kind_replace {w : Rework} {n old new : NodeId} {k : NodeKind}
    (fronts : ∀ s, old ∉ w.front s) (addeds : ∀ o, old ∉ w.added o) :
    (w.replace old new).kind n k =
      (w.kind n k).mapChildren fun c => if c = old then new else c := by
  have kept {ids : List NodeId} (missing : old ∉ ids) :
      ids.map (fun c => if c = old then new else c) = ids := by
    refine (List.map_congr_left fun c member => if_neg ?_).trans (List.map_id' _)
    rintro rfl
    exact missing member
  cases k with
  | call callee name args =>
    simp [kind, replace, NodeKind.mapChildren, kept (addeds n), Function.comp_def]
  | fnDef sym formals body =>
    simp [kind, replace, NodeKind.mapChildren, kept (addeds n), Function.comp_def]
  | block stmts =>
    simp [kind, replace, NodeKind.mapChildren, List.map_flatMap, kept (fronts _)]
  | _ => simp [kind, replace, NodeKind.mapChildren, Function.comp_def]

theorem kind_add_of_ne {w : Rework} {n owner node : NodeId} (different : n ≠ owner) (k : NodeKind) :
    (w.add owner node).kind n k = w.kind n k := by
  cases k <;> simp [kind, added_add_of_ne _ _ different]

theorem kind_insert_of_not_mem {w : Rework} {n anchor node : NodeId} {k : NodeKind}
    (missing : anchor ∉ k.children) : (w.insert anchor node).kind n k = w.kind n k := by
  cases k with
  | block stmts =>
    simp only [kind, NodeKind.block.injEq]
    refine List.flatMap_congr fun s member => ?_
    have different : s ≠ anchor := by
      rintro rfl
      exact missing member
    rw [front_insert_of_ne _ _ different, swap_insert]
  | _ => rfl

theorem mem_children_kind {w : Rework} {n c : NodeId} {k : NodeKind}
    (child : c ∈ (w.kind n k).children) :
    (∃ d ∈ k.children, c = w.swap d ∨ c ∈ w.front d) ∨ c ∈ w.added n := by
  cases k <;> simp [kind, NodeKind.mapChildren, NodeKind.children] at child ⊢ <;> grind

/-- The new statement comes directly in front of the anchor and behind what was inserted before. -/
theorem insert_flatMap {w : Rework} {anchor node : NodeId} {stmts : List NodeId}
    (distinct : stmts.Nodup) (member : anchor ∈ stmts) (fronts : ∀ s, anchor ∉ w.front s)
    (swaps : ∀ s, w.swap s = anchor ↔ s = anchor) :
    let ids := stmts.flatMap fun s => w.front s ++ [w.swap s]
    ids.take (ids.idxOf anchor) ++ node :: ids.drop (ids.idxOf anchor) =
      stmts.flatMap fun s => (w.insert anchor node).front s ++ [(w.insert anchor node).swap s] := by
  obtain ⟨before, after, rfl⟩ := List.append_of_mem member
  obtain ⟨_, apart, fresh⟩ := List.nodup_append.mp distinct
  have notBefore : anchor ∉ before := fun there => fresh _ there _ List.mem_cons_self rfl
  have notAfter : anchor ∉ after := (List.nodup_cons.mp apart).1
  have kept {l : List NodeId} (missing : anchor ∉ l) :
      l.flatMap (fun s => (w.insert anchor node).front s ++ [(w.insert anchor node).swap s]) =
        l.flatMap fun s => w.front s ++ [w.swap s] := by
    refine List.flatMap_congr fun s there => ?_
    have different : s ≠ anchor := fun same => missing (same ▸ there)
    rw [front_insert_of_ne _ _ different, swap_insert]
  have here := (swaps anchor).mpr rfl
  have first : anchor ∉ before.flatMap (fun s => w.front s ++ [w.swap s]) ++ w.front anchor := by
    simp only [List.mem_append, List.mem_flatMap, List.mem_singleton, not_or, not_exists, not_and]
    refine ⟨fun s there => ⟨fronts s, fun same => ?_⟩, fronts anchor⟩
    exact notBefore ((swaps s).mp same.symm ▸ there)
  have split : (before ++ anchor :: after).flatMap (fun s => w.front s ++ [w.swap s]) =
      (before.flatMap (fun s => w.front s ++ [w.swap s]) ++ w.front anchor) ++
        anchor :: after.flatMap fun s => w.front s ++ [w.swap s] := by
    simp [here]
  intro ids
  have place : ids.idxOf anchor =
      (before.flatMap (fun s => w.front s ++ [w.swap s]) ++ w.front anchor).length := by
    rw [show ids = _ from split, List.idxOf_append_of_notMem first, List.idxOf_cons_self, Nat.add_zero]
  rw [place, show ids = _ from split, List.take_left, List.drop_left, List.flatMap_append,
    List.flatMap_cons, kept notBefore, kept notAfter]
  simp [here]

end Rework

namespace Program

variable {p t q : Program} {w : Rework}

/-! The constructs after an edit. -/

theorem kind_of_insertBefore (forest : t.Forest) {anchor node : NodeId}
    (result : t.insertBefore anchor node = .ok q) : ∃ owner ids, t.parent? anchor = some owner ∧
      t.Live owner ∧ (t.kind owner).childList? = some ids ∧ ∀ n, q.kind n =
        if n = owner then (t.kind owner).withChildList
          (ids.take (ids.idxOf anchor) ++ node :: ids.drop (ids.idxOf anchor)) else t.kind n := by
  obtain ⟨owner, ⟨_, link⟩, attachable, ids, list, _, rfl⟩ :=
    (insertNear_eq_ok_iff forest).mp result
  refine ⟨owner, ids, link, attachable.owner_live, list, fun n => ?_⟩
  rw [kind_adopt, kind_setKind attachable.owner_live.known, Nat.add_zero]

theorem kind_of_replace (sound : t.Sound) {old new : NodeId} (result : t.replace old new = .ok q) :
    ∃ owner, t.parent? old = some owner ∧ t.Live owner ∧ ∀ n, q.kind n =
      if n = owner then (t.kind owner).replaceChild old new else t.kind n := by
  obtain ⟨owner, ⟨live, link⟩, attachable, equal⟩ := (replace_eq_ok_iff sound.forest).mp result
  have cut := cut_spec sound live link (NodeKind.replaceChild_head (t.kind owner) old new)
  refine ⟨owner, link, attachable.owner_live, fun n => ?_⟩
  rw [equal, kind_adopt, (destroy_spec _ old).kind, cut.kind_eq]

theorem kind_of_setRef {node : NodeId} {v : SymbolId} (result : t.setRef node v = .ok q)
    (n : NodeId) : q.kind n = if n = node then .symRef v else t.kind n := by
  obtain ⟨live, _, rfl⟩ := setRef_eq_ok_iff.mp result
  rw [kind, node_of_nodes (nodes_touch ..), ← kind, kind_setKind live.known]

/-! What has become of a program. -/

/-- Of the nodes of `p` those that are left have become what `w` says, references apart, and what
else is there is new. What was defined with a value still is. -/
structure Reworked (p : Program) (w : Rework) (t : Program) : Prop where
  kind {n : NodeId} : n.index < p.nodes.size → t.Live n → (p.kind n).symRef? = none →
    t.kind n = w.kind n (p.kind n)
  valued {n : NodeId} : n.index < p.nodes.size → (p.kind n).symRef? = none →
    (t.kind n).isValued = (p.kind n).isValued
  swap (n : NodeId) : w.swap n = n ∨ p.nodes.size ≤ (w.swap n).index
  front {s d : NodeId} : d ∈ w.front s → p.nodes.size ≤ d.index
  added {o c : NodeId} : c ∈ w.added o → p.nodes.size ≤ c.index
  young {n c : NodeId} : p.nodes.size ≤ n.index → c ∈ t.children n → p.nodes.size ≤ c.index

namespace Reworked

theorem refl : Reworked p .unchanged p where
  kind _ _ _ := (Rework.kind_unchanged ..).symm
  valued _ _ := rfl
  swap _ := .inl rfl
  front member := absurd member List.not_mem_nil
  added member := absurd member List.not_mem_nil
  young {n c} isNew child := by
    rw [children, Program.kind, node_of_not_known isNew] at child
    cases child

variable (reworked : Reworked p w t)

include reworked in
/-- Only references have changed. -/
theorem mono (live : ∀ n, n.index < p.nodes.size → q.Live n → t.Live n)
    (kinds : ∀ n, n.index < p.nodes.size → (p.kind n).symRef? = none → q.kind n = t.kind n)
    (young : ∀ n, p.nodes.size ≤ n.index → ∀ c ∈ q.children n, c ∈ t.children n ∨
      p.nodes.size ≤ c.index) : Reworked p w q :=
  { reworked with
    kind := fun {n} known liveQ noRef => by
      rw [kinds n known noRef, reworked.kind known (live n known liveQ) noRef]
    valued := fun {n} known noRef => by rw [kinds n known noRef, reworked.valued known noRef]
    young := fun {n c} isNew child => (young n isNew c child).elim (reworked.young isNew) id }

include reworked in
/-- An edit at an old node leaves the new ones as they are. -/
theorem young_of_edit {owner : NodeId} {gone come lost : Option NodeId}
    (edit : Edit t owner gone come lost q) (known : owner.index < p.nodes.size) {n c : NodeId}
    (isNew : p.nodes.size ≤ n.index) (child : c ∈ q.children n) : p.nodes.size ≤ c.index := by
  rw [edit.children_of_ne fun same => absurd known (Nat.not_lt.mpr (same ▸ isNew))] at child
  exact reworked.young isNew child

include reworked in
theorem append {owner node : NodeId} (sound : t.Sound) (result : t.append owner node = .ok q)
    (known : owner.index < p.nodes.size) (isNew : p.nodes.size ≤ node.index)
    (lists : (p.kind owner).tag = .call ∨ (p.kind owner).tag = .fnDef) :
    Reworked p (w.add owner node) q := by
  have edit := append_edit sound result
  obtain ⟨ids, list, kinds⟩ := kind_of_append result
  refine
    { swap := reworked.swap
      front := reworked.front
      young := reworked.young_of_edit edit known
      valued := fun {n} knownN noRef => by
        rw [kinds, ← reworked.valued knownN noRef]
        split
        · rename_i same
          rw [NodeKind.isValued_withChildList, same]
        · rfl
      kind := fun {n} knownN liveN noRef => ?_
      added := fun {o c} member => ?_ }
  · have before := reworked.kind knownN (edit.live.mp liveN).1 noRef
    rw [kinds]
    by_cases same : n = owner
    · subst same
      rw [if_pos rfl, before]
      rw [before] at list
      rcases lists with tag | tag <;> cases kind : p.kind n <;>
        simp [kind, NodeKind.tag] at tag <;>
        simp [kind, Rework.kind, NodeKind.childList?] at list <;>
        simp [Rework.kind, NodeKind.withChildList, ← list]
    · rw [if_neg same, before, Rework.kind_add_of_ne same]
  · by_cases same : o = owner
    · subst same
      rw [Rework.added_add_self, List.mem_append, List.mem_singleton] at member
      rcases member with old | rfl
      · exact reworked.added old
      · exact isNew
    · rw [Rework.added_add_of_ne _ _ same] at member
      exact reworked.added member

include reworked in
/-- What is left of the old nodes stands in its own place. -/
theorem swap_eq_iff {n m : NodeId} (known : n.index < p.nodes.size) (here : w.swap n = n) :
    w.swap m = n ↔ m = n := by
  constructor
  · intro same
    rcases reworked.swap m with kept | isNew
    · exact kept.symm.trans same
    · rw [same] at isNew
      exact absurd known (Nat.not_lt.mpr isNew)
  · rintro rfl
    exact here

include reworked in
/-- A child that is left stands in its own place. -/
theorem swap_of_live {n c : NodeId} (soundP : p.Sound) (sound : t.Sound) (frame : Frame p t)
    (reached : p.Reached n) (child : c ∈ p.children n) (live : t.Live c) : w.swap c = c := by
  have known := (soundP.forest.child_live (soundP.live_of_reached reached) child).known
  have linkP := soundP.forest.child_parent (soundP.live_of_reached reached) child
  have link := (frame.parent (.child reached child) live).trans linkP
  have liveN := sound.forest.owner_live live link
  have lists := sound.forest.owner_lists live link
  have noRef : (p.kind n).symRef? = none := by
    rw [children] at child
    cases kind : p.kind n <;> simp [kind, NodeKind.children] at child <;> rfl
  rw [children, reworked.kind (soundP.live_of_reached reached).known liveN noRef] at lists
  rcases Rework.mem_children_kind lists with ⟨d, _, here | inFront⟩ | isAdded
  · rcases reworked.swap d with kept | isNew
    · rw [here, kept, kept]
    · rw [← here] at isNew
      exact absurd known (Nat.not_lt.mpr isNew)
  · exact absurd known (Nat.not_lt.mpr (reworked.front inFront))
  · exact absurd known (Nat.not_lt.mpr (reworked.added isAdded))

include reworked in
theorem insertBefore {anchor node : NodeId} (soundP : p.Sound) (sound : t.Sound) (frame : Frame p t)
    (standing : p.Standing anchor) (result : t.insertBefore anchor node = .ok q)
    (isNew : p.nodes.size ≤ node.index) : Reworked p (w.insert anchor node) q := by
  obtain ⟨owner, link, edit⟩ := insertNear_edit sound result
  obtain ⟨owner', ids, link', liveOwner, list, kinds⟩ := kind_of_insertBefore sound.forest result
  obtain rfl : owner = owner' := Option.some.inj (link.symm.trans link')
  obtain ⟨reached, b, linkP, isBlock⟩ := standing
  have live := live_of_insertBefore sound result
  have known := (soundP.live_of_reached reached).known
  obtain rfl : owner = b := Option.some.inj (link.symm.trans ((frame.parent reached live).trans linkP))
  have reachedB := soundP.forest.reached_owner soundP.rooted reached linkP
  have liveB := soundP.live_of_reached reachedB
  have child := soundP.forest.owner_lists (soundP.live_of_reached reached) linkP
  have here := reworked.swap_of_live soundP sound frame reachedB child live
  refine
    { added := reworked.added
      swap := reworked.swap
      young := reworked.young_of_edit edit (soundP.forest.owner_known linkP)
      valued := fun {n} knownN noRef => by
        rw [kinds, ← reworked.valued knownN noRef]
        split
        · rename_i same
          rw [NodeKind.isValued_withChildList, same]
        · rfl
      kind := fun {n} knownN liveN noRef => ?_
      front := fun {s d} member => ?_ }
  · have liveT := (edit.live.mp liveN).1
    have before := reworked.kind knownN liveT noRef
    rw [kinds]
    by_cases same : n = owner
    · subst same
      rw [before] at list
      obtain ⟨stmts, kind⟩ : ∃ stmts, p.kind n = .block stmts := by
        cases kind : p.kind n <;> simp [kind, NodeKind.isBlock] at isBlock
        exact ⟨_, rfl⟩
      have distinct := soundP.forest.children_nodup liveB
      rw [children, kind, NodeKind.children] at distinct child
      rw [if_pos rfl, before, kind, Rework.kind, NodeKind.withChildList, Rework.kind,
        ← Rework.insert_flatMap distinct child
          (fun s member => absurd known (Nat.not_lt.mpr (reworked.front member)))
          fun s => reworked.swap_eq_iff known here]
      rw [kind, Rework.kind, NodeKind.childList?] at list
      cases list
      rfl
    · rw [if_neg same, before, Rework.kind_insert_of_not_mem]
      intro other
      have linkN := soundP.forest.child_parent (frame.live knownN liveT) other
      rw [linkP] at linkN
      exact same (Option.some.inj linkN).symm
  · by_cases same : s = anchor
    · subst same
      rw [Rework.front_insert_self, List.mem_append, List.mem_singleton] at member
      rcases member with old | rfl
      · exact reworked.front old
      · exact isNew
    · rw [Rework.front_insert_of_ne _ _ same] at member
      exact reworked.front member

include reworked in
theorem replace {old new : NodeId} (sound : t.Sound) (result : t.replace old new = .ok q)
    (known : old.index < p.nodes.size) (isNew : p.nodes.size ≤ new.index) :
    Reworked p (w.replace old new) q := by
  obtain ⟨owner, link, edit⟩ := replace_edit sound result
  obtain ⟨owner', link', liveOwner, kinds⟩ := kind_of_replace sound result
  cases Option.some.inj (link.symm.trans link')
  have knownOwner : owner.index < p.nodes.size := by
    by_contra unknown
    have lists := sound.forest.owner_lists (edit.gone_live rfl) link
    exact absurd known (Nat.not_lt.mpr (reworked.young (Nat.not_lt.mp unknown) lists))
  refine
    { front := reworked.front
      added := reworked.added
      young := reworked.young_of_edit edit knownOwner
      valued := fun {n} knownN noRef => by
        rw [kinds, ← reworked.valued knownN noRef]
        split
        · rename_i same
          rw [NodeKind.isValued_replaceChild, same]
        · rfl
      kind := fun {n} knownN liveN noRef => ?_
      swap := fun n => ?_ }
  · have liveT := (edit.live.mp liveN).1
    have before := reworked.kind knownN liveT noRef
    have distinct := sound.forest.children_nodup liveT
    rw [Rework.kind_replace
      (fun s member => absurd known (Nat.not_lt.mpr (reworked.front member)))
      (fun o member => absurd known (Nat.not_lt.mpr (reworked.added member))), ← before, kinds]
    by_cases same : n = owner
    · subst same
      rw [if_pos rfl, NodeKind.replaceChild_eq_mapChildren distinct]
    · -- The node that gives way is a child of no other node.
      rw [if_neg same, NodeKind.mapChildren_of_fixed]
      intro c child
      refine if_neg ?_
      rintro rfl
      have other := sound.forest.child_parent liveT child
      rw [link] at other
      exact same (Option.some.inj other).symm
  · simp only [Rework.replace]
    split
    · exact .inr isNew
    · exact reworked.swap n

include reworked in
/-- What is old and can be reached could always be reached. -/
theorem reached_of_reached (sound : t.Sound) (frame : Frame p t) {n : NodeId}
    (reached : t.Reached n) (known : n.index < p.nodes.size) : p.Reached n := by
  induction reached with
  | root root =>
    rw [frame.roots] at root
    exact .root root
  | @child owner n reachedT child ih =>
    have knownO : owner.index < p.nodes.size := by
      by_contra unknown
      exact absurd known (Nat.not_lt.mpr (reworked.young (Nat.not_lt.mp unknown) child))
    refine .child (ih knownO) ?_
    have noRef : (p.kind owner).symRef? = none := by
      by_contra some
      have tag := frame.tag knownO
      rw [NodeKind.symRef?_isSome_iff.mp (Option.isSome_iff_ne_none.mpr some)] at tag
      rw [children] at child
      cases kind : t.kind owner <;> simp [kind, NodeKind.children, NodeKind.tag] at child tag
    rw [children, reworked.kind knownO (sound.live_of_reached reachedT) noRef] at child
    rcases Rework.mem_children_kind child with ⟨d, there, rfl | inFront⟩ | isAdded
    · rcases reworked.swap d with kept | isNew
      · rwa [kept]
      · exact absurd known (Nat.not_lt.mpr isNew)
    · exact absurd known (Nat.not_lt.mpr (reworked.front inFront))
    · exact absurd known (Nat.not_lt.mpr (reworked.added isAdded))

end Reworked

/-! What is new stays as it is. -/

/-- The nodes from the place `bound` on keep their constructs, but for `loose` ones, and symbols and
places in the source stay what they are. -/
structure Retains (bound : Nat) (loose : NodeId → Prop) (t q : Program) : Prop where
  size : t.nodes.size ≤ q.nodes.size
  symbols_size : t.symbols.size ≤ q.symbols.size
  kind {n : NodeId} : bound ≤ n.index → n.index < t.nodes.size → ¬ loose n → q.kind n = t.kind n
  lasts {s : SymbolId} : s.index < t.symbols.size → (t.symbol s).Lasts (q.symbol s)
  span {n : NodeId} : n.index < t.nodes.size → q.span n = t.span n

namespace Retains

variable {bound : Nat} {loose : NodeId → Prop} {r : Program}

theorem name {s : SymbolId} (retains : Retains bound loose t q) (known : s.index < t.symbols.size) :
    q.name s = t.name s := (retains.lasts known).name

theorem ty {s : SymbolId} (retains : Retains bound loose t q) (known : s.index < t.symbols.size) :
    (q.symbol s).ty = (t.symbol s).ty := (retains.lasts known).ty

theorem refl : Retains bound loose t t :=
  ⟨le_refl _, le_refl _, fun _ _ _ => rfl, fun _ => .refl, fun _ => rfl⟩

theorem trans (first : Retains bound loose t q) (second : Retains bound loose q r) :
    Retains bound loose t r where
  size := first.size.trans second.size
  symbols_size := first.symbols_size.trans second.symbols_size
  kind isNew known tight :=
    (second.kind isNew (known.trans_le first.size) tight).trans (first.kind isNew known tight)
  lasts known := (first.lasts known).trans (second.lasts (known.trans_le first.symbols_size))
  span known := (second.span (known.trans_le first.size)).trans (first.span known)

theorem mono {loose' : NodeId → Prop} (retains : Retains bound loose t q)
    (more : ∀ n, bound ≤ n.index → loose n → loose' n) : Retains bound loose' t q :=
  { retains with
    kind := fun {n} isNew known tight =>
      retains.kind isNew known fun isLoose => tight (more n isNew isLoose) }

theorem addSymbol (sym : Symbol) : Retains bound loose t (t.addSymbol sym).2 where
  size := le_refl _
  symbols_size := by simp [Program.addSymbol]
  kind _ _ _ := rfl
  lasts known := by
    rw [symbol_addSymbol_of_known sym known]
    exact .refl
  span _ := rfl

theorem addNode (kind : NodeKind) (span : Span) :
    Retains bound loose t (t.addNode kind span).2 where
  size := by rw [(size_addNode ..).1]; omega
  symbols_size := (size_addNode ..).2.ge
  kind {n} _ known _ := by
    rw [kind_addNode, if_neg]
    rintro rfl
    exact Nat.lt_irrefl _ known
  lasts {s} _ := by
    rw [symbol_addNode]
    exact ⟨rfl, rfl, rfl, fun _ _ _ => rfl⟩
  span := span_addNode kind span

theorem edit {owner : NodeId} {gone come lost : Option NodeId}
    (edit : Edit t owner gone come lost q) (spans : ∀ n, q.span n = t.span n)
    (isOld : owner.index < bound) : Retains bound loose t q where
  size := edit.size.ge
  symbols_size := edit.symbols_size.ge
  kind isNew _ _ := edit.kind_of_ne fun same => absurd isOld (Nat.not_lt.mpr (same ▸ isNew))
  lasts {s} _ := .of_core (edit.core s)
  span _ := spans _

theorem setRef {node : NodeId} {v : SymbolId} (result : t.setRef node v = .ok q)
    (free : node.index < bound ∨ loose node) : Retains bound loose t q where
  size := (setRef_retarget result).size.ge
  symbols_size := (setRef_retarget result).symbols_size.ge
  kind {n} isNew _ tight := by
    rw [kind_of_setRef result, if_neg]
    rintro rfl
    rcases free with isOld | isLoose
    · exact absurd isOld (Nat.not_lt.mpr isNew)
    · exact tight isLoose
  lasts {s} _ := .of_core ((setRef_retarget result).core s)
  span _ := span_of_setRef result _

theorem captured (s : SymbolId) : Retains bound loose t (t.attachFlag s .captured) where
  size := le_refl _
  symbols_size := (size_modifySymbol ..).ge
  kind _ _ _ := rfl
  lasts _ := lasts_attachFlag s _ (.inl rfl)
  span _ := rfl

end Retains

/-- Where no node is, there is no construct but the one that stands for none. -/
theorem known_of_kind {n : NodeId} (other : t.kind n ≠ .brk) : n.index < t.nodes.size := by
  by_contra unknown
  rw [kind, node_of_not_known (Nat.not_lt.mp unknown)] at other
  exact other rfl

theorem known_of_ref {n : NodeId} {v : SymbolId} (ref : t.kind n = .symRef v) :
    n.index < t.nodes.size :=
  known_of_kind (by rw [ref]; simp)

end Program

end MiddleEnd
