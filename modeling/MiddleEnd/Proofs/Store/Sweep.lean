import MiddleEnd.Proofs.Flow.Jumps
import MiddleEnd.Proofs.Flow.Stale
import MiddleEnd.Proofs.Store.Round

/-! The rounds come to an end. -/

namespace MiddleEnd

open Outcome

namespace Program

/-- The programs have the same nodes at and below `d`. -/
structure SameBelow (p : Program) (d : NodeId) (q : Program) : Prop where
  size : q.nodes.size = p.nodes.size
  node {n : NodeId} : p.Live n → p.Above d n → q.node n = p.node n

namespace SameBelow

variable {p q : Program} {d root : NodeId} (same : p.SameBelow d q) (forest : p.Forest)

include same

theorem kind {n : NodeId} (live : p.Live n) (above : p.Above d n) : q.kind n = p.kind n :=
  congrArg Node.kind (same.node live above)

theorem live {n : NodeId} (live : p.Live n) (above : p.Above d n) : q.Live n := by
  rwa [Live, same.node live above]

include forest

theorem toList (w : Walk) (starts : ∀ n ∈ w.stack, p.Live n ∧ p.Above d n) :
    w.toList q = w.toList p :=
  toList_congr same.size
    (fun _ ⟨live, above⟩ _ child =>
      ⟨forest.child_live live child, .up (forest.child_parent live child) above⟩)
    (fun _ ⟨live, above⟩ => same.kind live above)
    (fun _ ⟨live, above⟩ => congrArg Node.live (same.node live above)) w starts

theorem collect (tag : NodeTag) (live : p.Live root) (above : p.Above d root) :
    q.collect tag root = p.collect tag root :=
  same.toList forest _ fun _ member => List.mem_singleton.mp member ▸ ⟨live, above⟩

theorem preorder (live : p.Live root) (above : p.Above d root) : q.preorder root = p.preorder root :=
  same.toList forest _ fun _ member => List.mem_singleton.mp member ▸ ⟨live, above⟩

end SameBelow

namespace Erased

variable {p q : Program} {gone : List NodeId} (erased : p.Erased gone q)

include erased

/-- Only so many nodes can be missing as there are. -/
theorem length_le (sound : p.Sound) : gone.length ≤ p.nodes.size := by
  have indices : (gone.map NodeId.index).Nodup :=
    erased.nodup.map fun _ _ same => NodeId.index_inj.mp same
  have known : gone.map NodeId.index ⊆ List.range p.nodes.size := by
    intro i member
    obtain ⟨store, listed, rfl⟩ := List.mem_map.mp member
    exact List.mem_range.mpr (sound.live_of_reached (erased.gone_reached listed)).known
  simpa using (List.subperm_of_subset indices known).length_le

/-- The missing assignments are those that have been destroyed. -/
theorem mem_iff (settled : p.Settled) {n : NodeId} :
    n ∈ gone ↔ p.Live n ∧ (p.kind n).tag = .assign ∧ ¬ q.Live n := by
  constructor
  · intro member
    exact ⟨settled.sound.live_of_reached (erased.gone_reached member), erased.assign member,
      erased.dead_of_gone member⟩
  · rintro ⟨live, assign, dead⟩
    obtain ⟨store, member, above⟩ : ∃ store ∈ gone, p.Above store n := by
      by_contra none
      exact dead (erased.live_iff.mpr ⟨live, fun store member above => none ⟨store, member, above⟩⟩)
    exact settled.eq_of_above_assign (erased.assign member) live above
      (NodeKind.not_expr_of_assign assign) ▸ member

theorem children_subset {n : NodeId} (live : q.Live n) : q.children n ⊆ p.children n := by
  rw [children, erased.kind_eq live, children]
  cases p.kind n with
  | block ids => exact List.filter_sublist.subset
  | _ => exact List.Subset.refl _

theorem own {d n : NodeId} (live : q.Live d) (own : q.Own d n) : p.Own d n := by
  induction own with
  | refl => exact .refl
  | @down n c inner entered child ih =>
    refine .down ih ?_
      (erased.children_subset (erased.settled.sound.forest.live_of_own live inner) child)
    rwa [(erased.shrinks.head n).isFnDef] at entered

/-- A function in which nothing is missing is as it was. -/
theorem sameBelow (flat : p.Flat) {f : SymbolId} {d : NodeId} (placed : p.Placed f d)
    (apart : ∀ store ∈ gone, p.scope? store ≠ some f) : p.SameBelow d q := by
  have forest := flat.settled.sound.forest
  have outside {store : NodeId} (member : store ∈ gone) : ¬ p.Above d store := fun above => by
    refine apart store member (flat.scope_eq placed (erased.gone_reached member) above ?_)
    rintro rfl
    have assign := erased.assign member
    rw [NodeKind.isFnDef_iff.mp placed.2.1] at assign
    cases assign
  refine ⟨erased.size, fun {n} live above => ?_⟩
  have liveQ : q.Live n := by
    refine erased.live_iff.mpr ⟨live, fun store member aboveN => ?_⟩
    rcases aboveN.total above with up | down
    · have liveD := flat.settled.sound.live_of_reached placed.1
      have same := flat.settled.eq_of_above_assign (erased.assign member) liveD up
        (NodeKind.not_expr_of_fnDef placed.2.1)
      exact outside member (same ▸ .refl)
    · exact outside member down
  have kept : (p.kind n).without gone = p.kind n := by
    cases kind : p.kind n with
    | block ids =>
      refine congrArg NodeKind.block (List.filter_eq_self.mpr fun c listed => ?_)
      have child : c ∈ p.children n := by rwa [children, kind, NodeKind.children]
      exact decide_eq_true fun member => outside member (.up (forest.child_parent live child) above)
    | _ => rfl
  rw [erased.node liveQ, kept]
  rfl

theorem untouched (flat : p.Flat) {f : SymbolId} {d : NodeId} (placed : p.Placed f d)
    (apart : ∀ store ∈ gone, p.scope? store ≠ some f) : p.Untouched d f q := by
  have sound := flat.settled.sound
  have same := erased.sameBelow flat placed apart
  have liveD := sound.live_of_reached placed.1
  have inside {n : NodeId} (own : p.Own d n) : p.Live n ∧ p.Above d n :=
    ⟨sound.forest.live_of_own liveD own, sound.forest.above_of_own liveD own⟩
  have kinds {n : NodeId} (own : p.Own d n) : q.kind n = p.kind n :=
    same.kind (inside own).1 (inside own).2
  obtain ⟨reached, fnDef, defines⟩ := erased.shrinks.placed_iff.mpr placed
  exact
    { size := Nat.le_of_eq erased.size.symm
      kind := fun own _ => by rw [kinds own]
      tag := fun own => by rw [kinds own]
      defines := fun own => by rw [kinds own]
      live := fun own => same.live (inside own).1 (inside own).2
      inScope := erased.settled.sound.inScope reached fnDef defines
      symbols_size := Nat.le_of_eq erased.symbols_size.symm
      name := fun {s} _ => by rw [name, erased.symbol, name]
      isVar := fun {s} _ => by rw [erased.symbol]; rfl }

theorem epoch_eq {f : SymbolId} (apart : ∀ store ∈ gone, p.scope? store ≠ some f) :
    q.epoch f = p.epoch f := by
  have none : p.countIn f gone = 0 :=
    List.countP_eq_zero.mpr fun store member => by simpa using apart store member
  rw [Program.epoch, erased.symbol, none]
  rfl

end Erased

end Program

namespace Store

open MiddleEnd.Flow Program TransformM

/-! Where nothing is missing, no store becomes dead. -/

section

variable {p q : Program} {f : SymbolId} {d : NodeId}

theorem addressTaken_of_sameBelow (forest : p.Forest) (live : p.Live d) (same : p.SameBelow d q)
    (found : p.fnDef? f = some d) (foundQ : q.fnDef? f = some d) :
    addressTaken q f = addressTaken p f := by
  rw [addressTaken, addressTaken, foundQ, found]
  dsimp only
  rw [same.collect forest _ live .refl]
  refine List.filterMap_congr fun n member => ?_
  obtain ⟨liveN, above, _⟩ := forest.mem_collect.mp member
  rw [addressed?, addressed?, same.kind liveN above]
  split
  · rename_i operand rest kind
    have child : operand ∈ p.children n := by simp [children, kind, NodeKind.children]
    rw [same.kind (forest.child_live liveN child) (.up (forest.child_parent liveN child) above)]
  · rfl

theorem isPure_of_sameBelow (forest : p.Forest) (same : p.SameBelow d q) {root : NodeId}
    (live : p.Live root) (above : p.Above d root) : isPure q root = isPure p root := by
  rw [isPure, isPure, same.preorder forest live above, Bool.eq_iff_iff, List.all_eq_true,
    List.all_eq_true]
  refine forall₂_congr fun n member => ?_
  obtain ⟨liveN, inside⟩ := forest.mem_preorder.mp member
  rw [same.kind liveN (above.trans inside)]

theorem deadStore?_of_sameBelow (forest : p.Forest) (same : p.SameBelow d q) (shrinks : p.Shrinks q)
    {l : Liveness} {escaped : List SymbolId} {item : Item} (live : p.Live item.node)
    (above : p.Above d item.node) (after : BitSet l.locals.size) :
    deadStore? q l escaped item after = deadStore? p l escaped item after := by
  cases item with
  | branch | loopTest | forHeader => rfl
  | stmt store =>
    have kind : q.kind store = p.kind store := same.kind live above
    rw [deadStore?, deadStore?]
    simp only [kind]
    cases kindP : p.kind store with
    | assign target value =>
      have part {c : NodeId} (child : c ∈ p.children store) : p.Live c ∧ p.Above d c :=
        ⟨forest.child_live live child, .up (forest.child_parent live child) above⟩
      obtain ⟨liveT, aboveT⟩ := part (c := target) (by simp [children, kindP, NodeKind.children])
      obtain ⟨liveV, aboveV⟩ := part (c := value) (by simp [children, kindP, NodeKind.children])
      dsimp only
      rw [same.kind liveT aboveT, isPure_of_sameBelow forest same liveV aboveV]
      simp only [removable, shrinks.hasFlag]
      rfl
    | _ => rfl

theorem afterEach_congr (l : Liveness) (out : BitSet l.locals.size) {items : List Item}
    (same : ∀ item ∈ items, accesses q item = accesses p item) :
    l.afterEach q out items = l.afterEach p out items := by
  induction items with
  | nil => rfl
  | cons item rest ih =>
    have first : l.beforeItem q item = l.beforeItem p item := by
      funext live
      rw [Liveness.beforeItem, Liveness.beforeItem, same item List.mem_cons_self]
    have others := ih fun other member => same other (List.mem_cons_of_mem _ member)
    rw [Liveness.afterEach, Liveness.afterEach, others, first]

/-- The stores of a function that is as it was are dead if they were. -/
theorem deadStores_of_apart {gone : List NodeId} {g : Graph} (flat : p.Flat) (placed : p.Placed f d)
    (erased : p.Erased gone q) (apart : ∀ store ∈ gone, p.scope? store ≠ some f)
    (built : Graph.build p f = .ok g) : deadStores q f = deadStores p f := by
  have settled := flat.settled
  have sound := settled.sound
  have liveD := sound.live_of_reached placed.1
  have same := erased.sameBelow flat placed apart
  have untouched := erased.untouched flat placed apart
  obtain ⟨foundDef, formals, body, kind, found⟩ := settled.fnBody?_eq placed
  have foundQ : q.fnBody? f = some body := (erased.shrinks.fnBody?_eq f).trans found
  have foundDefQ : q.fnDef? f = some d := (erased.shrinks.fnDef?_eq f).trans foundDef
  have plain := settled.plain placed.1 kind
  have builtQ := build_of_untouched untouched sound liveD kind plain found foundQ
    (erased.epoch_eq apart) placed.2.2 built
  have liveness := ofGraph_of_untouched untouched sound erased.settled.sound liveD kind plain found
    foundQ built
  have escaped := addressTaken_of_sameBelow sound.forest liveD same foundDef foundDefQ
  obtain ⟨body', found', _, below⟩ := Graph.contents_of_build settled.toTidy placed built
  cases found.symm.trans found'
  have link : p.Above d body :=
    .of_parent (sound.forest.child_parent liveD (by simp [children, kind, NodeKind.children]))
  have each (b : Nat) : deadIn q f g b = deadIn p f g b := by
    have items (item : Item) (member : item ∈ (g.block b).items) : p.Live item.node ∧
        p.Above d item.node ∧ accesses q item = accesses p item := by
      obtain ⟨live, above, _, stands⟩ := below item (mem_contents.mpr ⟨b, member⟩)
      exact ⟨live, link.trans above, accesses_of_prunes settled.toTidy erased.toPrunes
        (same.live live (link.trans above)) stands⟩
    rw [deadIn, deadIn]
    dsimp only
    rw [liveness, afterEach_congr _ _ fun item member => (items item member).2.2, escaped]
    refine List.filterMap_congr fun entry member => ?_
    obtain ⟨live, above, _⟩ := items entry.1 (List.of_mem_zip member).1
    exact deadStore?_of_sameBelow sound.forest same erased.shrinks live above entry.2
  rw [deadStores_eq built, deadStores_eq builtQ, funext each]

end

/-! The stores that go. -/

/-- The node is an assignment in the code of `f` to a local of `f`. -/
def AssignsLocal (p : Program) (f : SymbolId) (store : NodeId) : Prop :=
  p.scope? store = some f ∧ ∃ target value x, p.kind store = .assign target value ∧
    p.kind target = .symRef x ∧ x ∈ localsOf p f

section

variable {p q : Program} {gone dead : List NodeId} {f : SymbolId} {d store : NodeId}

theorem localsOf_subset (settled : p.Settled) (placed : p.Placed f d) (erased : p.Erased gone q) :
    localsOf q f ⊆ localsOf p f := by
  obtain ⟨_, _, body, kind, found⟩ := settled.fnBody?_eq placed
  have child : body ∈ q.children d := by
    rw [children, erased.shrinks.kind (by rw [kind]; rfl), kind]
    simp [NodeKind.children]
  have forestQ := erased.settled.sound.forest
  have liveQ : q.Live body := forestQ.child_live
    (erased.settled.sound.live_of_reached (erased.shrinks.placed_iff.mpr placed).1) child
  intro x member
  obtain ⟨n, value, own, define, isVar⟩ :=
    (mem_localsOf forestQ ((erased.shrinks.fnBody?_eq f).trans found) liveQ).mp member
  rw [erased.shrinks.kind (by rw [← (erased.shrinks.head n).isBlock, define]; rfl)] at define
  rw [erased.symbol] at isVar
  exact (mem_localsOf settled.sound.forest found (erased.live_iff.mp liveQ).1).mpr
    ⟨n, value, erased.own liveQ own, define, isVar⟩

theorem AssignsLocal.of_erased (settled : p.Settled) (placed : p.Placed f d) (erased : p.Erased gone q)
    (there : AssignsLocal q f store) : AssignsLocal p f store := by
  obtain ⟨scope, target, value, x, kind, isRef, isLocal⟩ := there
  have before {n : NodeId} (other : (q.kind n).isBlock = false) : p.kind n = q.kind n :=
    (erased.shrinks.kind ((erased.shrinks.head n).isBlock ▸ other)).symm
  refine ⟨(erased.shrinks.scope store).symm.trans scope, target, value, x, ?_, ?_,
    localsOf_subset settled placed erased isLocal⟩
  · rw [before (by rw [kind]; rfl), kind]
  · rw [before (by rw [isRef]; rfl), isRef]

theorem assignsLocal_of_dead {g : Graph} (flat : p.Flat) (placed : p.Placed f d)
    (built : Graph.build p f = .ok g) (found : deadStores p f = .ok dead) (member : store ∈ dead) :
    AssignsLocal p f store := by
  obtain ⟨reached, above, different, target, value, x, kind, isRef, isPrivate, _⟩ :=
    stands_of_dead flat.settled.toTidy placed built found member
  exact ⟨flat.scope_eq placed reached above different, target, value, x, kind, isRef,
    (isPrivate_iff.mp isPrivate).1⟩

end

/-! The run. -/

/-- The last round finds nothing. -/
theorem sweepFunction_of_clean {p : Program} {f : SymbolId} (found : deadStores p f = .ok []) (fuel : Nat)
    (tally : Tally) :
    sweepFunction f (fuel + 1) tally p = .ok { tally with rounds := tally.rounds + 1 } p := by
  rw [sweepFunction, run_get_bind, found]
  rfl

/-- The other rounds remove what they find. -/
theorem sweepFunction_of_dead {p q : Program} {f : SymbolId} {dead : List NodeId}
    (found : deadStores p f = .ok dead) (some : dead ≠ [])
    (removed : (dead.forM fun store => edit (·.remove store)) p = .ok () q) (fuel : Nat)
    (tally : Tally) : sweepFunction f (fuel + 1) tally p =
      sweepFunction f fuel ⟨tally.removed + dead.length, tally.rounds + 1⟩ q := by
  rw [sweepFunction, run_get_bind, found]
  cases dead with
  | nil => exact absurd rfl some
  | cons store more => exact run_bind removed

section

variable {start p : Program} {done : List NodeId} (flat : start.Flat)

include flat

/-- The rounds for one function come to a program where it has no dead stores, with whatever fuel there
is for as many rounds as there are nodes. -/
theorem sweepFunction_settles {f : SymbolId} {d : NodeId} {g : Graph} (placed : start.Placed f d)
    (built : Graph.build start f = .ok g) (erased : start.Erased done p) :
    ∃ gone rounds q, p.Erased gone q ∧ (∀ store ∈ gone, AssignsLocal p f store) ∧
      deadStores q f = .ok [] ∧ ∀ fuel, start.nodes.size < fuel + done.length → ∀ tally,
        sweepFunction f fuel tally p =
          .ok ⟨tally.removed + gone.length, tally.rounds + rounds⟩ q := by
  -- Each round but the last adds to what is missing, and that is never more than there was.
  induction room : start.nodes.size - done.length using Nat.strongRecOn generalizing done p with
  | _ room ih =>
    have settled := erased.settled
    have flatP := erased.shrinks.flat flat settled
    obtain ⟨g', built', _, placed'⟩ :=
      Graph.build_of_prunes flat.settled.toTidy placed erased.toPrunes built
    have bound := erased.length_le flat.settled.sound
    have fueled (fuel : Nat) (enough : start.nodes.size < fuel + done.length) :
        ∃ less, fuel = less + 1 := Nat.exists_eq_succ_of_ne_zero (by omega)
    cases found : deadStores p f with
    | error e =>
      rw [deadStores_eq built'] at found
      cases found
    | ok dead =>
      cases dead with
      | nil =>
        refine ⟨[], 1, p, .refl settled, nofun, found, fun fuel enough tally => ?_⟩
        obtain ⟨less, rfl⟩ := fueled fuel enough
        exact sweepFunction_of_clean found less tally
      | cons store more =>
        obtain ⟨q₁, removed, first⟩ := erase_deadStores settled placed' built' found
        have both := erased.trans first
        have bound' := both.length_le flat.settled.sound
        simp only [List.length_append, List.length_cons] at bound'
        obtain ⟨gone, rounds, q, rest, assigns, clean, runs⟩ :=
          ih _ (by simp only [List.length_append, List.length_cons]; omega) both rfl
        refine ⟨(store :: more) ++ gone, rounds + 1, q, first.trans rest, fun other member => ?_, clean,
          fun fuel enough tally => ?_⟩
        · rcases List.mem_append.mp member with now | later
          · exact assignsLocal_of_dead flatP placed' built' found now
          · exact (assigns other later).of_erased settled placed' first
        · obtain ⟨less, rfl⟩ := fueled fuel enough
          rw [sweepFunction_of_dead found (List.cons_ne_nil _ _) removed,
            runs less (by simp only [List.length_append, List.length_cons]; omega)]
          simp only [List.length_append]
          congr 2 <;> omega

/-- One function after the other is cleaned, and what is clean stays clean. -/
theorem sweep_settles {fs : List SymbolId}
    (graphs : ∀ f ∈ fs, ∃ d g, start.Placed f d ∧ Graph.build start f = .ok g)
    (erased : start.Erased done p) :
    ∃ gone rounds q, p.Erased gone q ∧ (∀ store ∈ gone, ∃ f ∈ fs, AssignsLocal p f store) ∧
      (∀ f ∈ fs, deadStores q f = .ok []) ∧
      (∀ f d, start.Placed f d → deadStores p f = .ok [] → deadStores q f = .ok []) ∧
      ∀ fuel, start.nodes.size < fuel → ∀ tally,
        fs.foldlM (fun tally f => sweepFunction f fuel tally) tally p =
          .ok ⟨tally.removed + gone.length, tally.rounds + rounds⟩ q := by
  induction fs generalizing done p with
  | nil => exact ⟨[], 0, p, .refl erased.settled, nofun, nofun, fun _ _ _ => id, fun _ _ _ => rfl⟩
  | cons f fs ih =>
    have flatP := erased.shrinks.flat flat erased.settled
    obtain ⟨d, g, placed, built⟩ := graphs f List.mem_cons_self
    obtain ⟨first, rounds₁, p₁, erased₁, assigns₁, clean₁, runs₁⟩ :=
      sweepFunction_settles flat placed built erased
    obtain ⟨others, rounds₂, q, erased₂, assigns₂, clean₂, kept₂, runs₂⟩ :=
      ih (fun f' member => graphs f' (List.mem_cons_of_mem _ member)) (erased.trans erased₁)
    have kept₁ (f' : SymbolId) (d' : NodeId) (placed' : start.Placed f' d')
        (clean : deadStores p f' = .ok []) : deadStores p₁ f' = .ok [] := by
      by_cases same : f' = f
      · exact same ▸ clean₁
      · obtain ⟨g', built', _⟩ := bind_eq_ok_iff.mp clean
        rw [deadStores_of_apart flatP (erased.shrinks.placed_iff.mpr placed') erased₁ ?_ built', clean]
        intro store member scope
        exact same (Option.some.inj (scope.symm.trans (assigns₁ store member).1))
    refine ⟨first ++ others, rounds₁ + rounds₂, q, erased₁.trans erased₂, fun store member => ?_,
      fun f' member => ?_, fun f' d' placed' clean => kept₂ f' d' placed' (kept₁ f' d' placed' clean),
      fun fuel enough tally => ?_⟩
    · rcases List.mem_append.mp member with now | later
      · exact ⟨f, List.mem_cons_self, assigns₁ store now⟩
      · obtain ⟨f', listed, assigns⟩ := assigns₂ store later
        obtain ⟨d', _, placed', _⟩ := graphs f' (List.mem_cons_of_mem _ listed)
        exact ⟨f', List.mem_cons_of_mem _ listed,
          assigns.of_erased erased.settled (erased.shrinks.placed_iff.mpr placed') erased₁⟩
    · rcases List.mem_cons.mp member with rfl | later
      · exact kept₂ f' d placed clean₁
      · exact clean₂ f' later
    · rw [List.foldlM_cons, run_bind (runs₁ fuel (by omega) tally), runs₂ fuel enough,
        List.length_append]
      dsimp only
      congr 2 <;> omega

/-- The only function that the removal can fail for is one without a graph. -/
theorem sweep_fails {fs : List SymbolId} (listed : ∀ f ∈ fs, f ∈ start.registries.fns)
    (erased : start.Erased done p) {fuel : Nat} (enough : start.nodes.size < fuel) {tally : Tally}
    {error : TransformError} {q : Program}
    (fails : fs.foldlM (fun tally f => sweepFunction f fuel tally) tally p = .error error q) :
    ∃ f ∈ fs, ∃ e, Graph.build start f = .error e ∧ error = .flow e := by
  induction fs generalizing done p tally with
  | nil => cases fails
  | cons f fs ih =>
    obtain ⟨d, placed⟩ := flat.settled.placed_of_registered (listed f List.mem_cons_self)
    rw [List.foldlM_cons] at fails
    cases built : Graph.build start f with
    | ok g =>
      obtain ⟨gone, rounds, p', erased', _, _, runs⟩ := sweepFunction_settles flat placed built erased
      rw [run_bind (runs fuel (by omega) tally)] at fails
      obtain ⟨f', member, others⟩ := ih (fun f' member => listed f' (List.mem_cons_of_mem _ member))
        (erased.trans erased') fails
      exact ⟨f', List.mem_cons_of_mem _ member, others⟩
    | error e =>
      obtain ⟨less, rfl⟩ : ∃ less, fuel = less + 1 := Nat.exists_eq_succ_of_ne_zero (by omega)
      have found : deadStores p f = .error e := by
        rw [deadStores, Graph.build_error_of_prunes flat.settled.toTidy placed erased.toPrunes built]
        rfl
      have first : sweepFunction f (less + 1) tally p = .error (.flow e) p := by
        rw [sweepFunction, run_get_bind, found]
        rfl
      change EStateM.bind _ _ p = _ at fails
      rw [EStateM.bind, first] at fails
      cases fails
      exact ⟨f, List.mem_cons_self, e, built, rfl⟩

end

/-- Where nothing is dead, one round for each function finds nothing. -/
theorem sweep_of_clean {p : Program} {fs : List SymbolId} (clean : ∀ f ∈ fs, deadStores p f = .ok [])
    (fuel : Nat) (tally : Tally) :
    fs.foldlM (fun tally f => sweepFunction f (fuel + 1) tally) tally p =
      .ok { tally with rounds := tally.rounds + fs.length } p := by
  induction fs generalizing tally with
  | nil => rfl
  | cons f fs ih =>
    rw [List.foldlM_cons, run_bind (sweepFunction_of_clean (clean f List.mem_cons_self) fuel tally),
      ih fun f' later => clean f' (List.mem_cons_of_mem _ later)]
    simp only [List.length_cons]
    congr 2
    omega

theorem sweptFunctions_eq {p q : Program} {gone : List NodeId} (erased : p.Erased gone q) :
    sweptFunctions q = sweptFunctions p := by
  simp only [sweptFunctions, erased.registries, erased.shrinks.hasFlag, erased.shrinks.fnBody?_eq]

theorem eliminateDeadStores_eq_ok {p q : Program} {tally : Tally}
    (runs : (sweptFunctions p).foldlM (fun tally f => sweepFunction f (p.nodes.size + 1) tally) {} p =
      .ok tally q) : eliminateDeadStores p = .ok
        { modified := decide (0 < tally.removed)
          stats := [("removed", tally.removed), ("rounds", tally.rounds)] } q := by
  rw [eliminateDeadStores, run_get_bind, run_bind runs]
  rfl

/-- In a program without nested functions the removal fails only for a function without a graph. -/
theorem eliminateDeadStores_fails {p q : Program} {error : TransformError} (flat : p.Flat)
    (fails : eliminateDeadStores p = .error error q) : ∃ f ∈ p.registries.fns,
      p.hasFlag f .external = false ∧ ∃ e, Graph.build p f = .error e ∧ error = .flow e := by
  cases swept : (sweptFunctions p).foldlM
      (fun tally f => sweepFunction f (p.nodes.size + 1) tally) {} p with
  | ok tally q' =>
    rw [eliminateDeadStores_eq_ok swept] at fails
    cases fails
  | error error' q' =>
    have same : error' = error := by
      change EStateM.bind _ _ p = _ at fails
      rw [EStateM.bind, swept] at fails
      cases fails
      rfl
    subst same
    obtain ⟨f, member, e, built, rfl⟩ := sweep_fails flat
      (fun f member => (List.mem_filter.mp member).1) (.refl flat.settled) (Nat.lt_succ_self _) swept
    obtain ⟨registered, inside⟩ := List.mem_filter.mp member
    exact ⟨f, registered, by simp_all, e, built, rfl⟩

/-- What dead store removal leaves of a program, once the assignments in `gone` are destroyed. -/
structure Cleared (p : Program) (gone : List NodeId) (q : Program) : Prop where
  erased : p.Erased gone q
  /-- Each was dead when its round came. -/
  rounds : Rounds p q
  destroyed {n : NodeId} : n ∈ gone ↔ p.Live n ∧ (p.kind n).tag = .assign ∧ ¬ q.Live n
  assigns {store : NodeId} : store ∈ gone →
    ∃ f ∈ p.registries.fns, p.hasFlag f .external = false ∧ AssignsLocal p f store
  clean {f : SymbolId} : f ∈ q.registries.fns → q.hasFlag f .external = false →
    deadStores q f = .ok []

/-- In a lowered program without nested functions whose jumps lead to labels of their own functions, dead
store removal comes to an end, and no bound on its rounds plays a part. It destroys only assignments
to locals of the functions around them and counts these; all else stays as it is. No dead store is left,
so a second run changes nothing. -/
theorem eliminateDeadStores_settles {tree : Surface.ProgramTree} {p : Program}
    (lowered : tree.lower = .ok p) (outer : ∀ f ∈ p.registries.fns, p.isNestedFn f = false)
    (labelled : ∀ f ∈ p.registries.fns, p.hasFlag f .external = false → Labelled p f) :
    ∃ gone rounds q,
      eliminateDeadStores p = .ok
        { modified := decide (0 < gone.length)
          stats := [("removed", gone.length), ("rounds", rounds)] } q ∧
      (∀ fuel, p.nodes.size < fuel →
        (sweptFunctions p).foldlM (fun tally f => sweepFunction f fuel tally) {} p =
          .ok ⟨gone.length, rounds⟩ q) ∧
      Cleared p gone q ∧
      eliminateDeadStores q = .ok
        { stats := [("removed", 0), ("rounds", (sweptFunctions q).length)] } q := by
  obtain ⟨settled, _⟩ := Surface.ProgramTree.lowered lowered
  have flat := Flat.of_not_nested settled outer
  have graphs (f : SymbolId) (member : f ∈ sweptFunctions p) :
      ∃ d g, p.Placed f d ∧ Graph.build p f = .ok g := by
    obtain ⟨registered, inside⟩ := List.mem_filter.mp member
    obtain ⟨d, placed⟩ := settled.placed_of_registered registered
    have notExternal : p.hasFlag f .external = false := by simp_all
    obtain ⟨g, built⟩ := Graph.exists_of_labelled settled.toTidy placed
      (labelled f registered notExternal)
    exact ⟨d, g, placed, built⟩
  obtain ⟨gone, rounds, q, erased, assigns, clean, _, runs⟩ := sweep_settles flat graphs (.refl settled)
  have same := sweptFunctions_eq erased
  have runs (fuel : Nat) (enough : p.nodes.size < fuel) := runs fuel enough {}
  simp only [Nat.zero_add] at runs
  have result := eliminateDeadStores_eq_ok (runs _ (Nat.lt_succ_self _))
  have cleared : Cleared p gone q :=
    { erased := erased
      rounds := (eliminateDeadStores_rounds settled).of_ok result
      destroyed := erased.mem_iff settled
      assigns := fun {store} member => by
        obtain ⟨f, listed, assigns⟩ := assigns store member
        obtain ⟨registered, inside⟩ := List.mem_filter.mp listed
        exact ⟨f, registered, by simp_all, assigns⟩
      clean := fun {f} member inside => by
        obtain ⟨d, placed⟩ := erased.settled.placed_of_registered member
        obtain ⟨_, _, _, _, found⟩ := erased.settled.fnBody?_eq placed
        exact clean f (same ▸ List.mem_filter.mpr ⟨member, by simp [inside, found]⟩) }
  have second := sweep_of_clean (fun f member => clean f (same ▸ member)) q.nodes.size {}
  rw [Nat.zero_add] at second
  exact ⟨gone, rounds, q, result, runs, cleared, eliminateDeadStores_eq_ok second⟩

/-- A loop by a jump, with a store that is dead once the one behind it is gone. -/
def chainTree : Surface.ProgramTree where
  modules := [{ name := "main", items := [
    .fn .nowhere "f" [] none .value [] [
      .var .nowhere "a" (some "int") none [],
      .var .nowhere "b" (some "int") none [],
      .label .nowhere "again",
      .assign .nowhere (.name "a") (.int 1),
      .assign .nowhere (.name "b") (.name "a"),
      .goto .nowhere "again"]] }]

@[irreducible] def chainProgram : Program := chainTree.lower.toOption.getD .empty

theorem chainTree_lowers : chainTree.lower = .ok chainProgram := by
  unfold chainProgram
  exact Surface.ProgramTree.lower_eq_ok (by decide +kernel)

/-- Two rounds remove a store each, and the third finds nothing. -/
theorem chainProgram_settles : ∃ gone q, gone.length = 2 ∧
    eliminateDeadStores chainProgram =
      .ok { modified := true, stats := [("removed", 2), ("rounds", 3)] } q ∧
    Cleared chainProgram gone q ∧ deadStores q ⟨1⟩ = .ok [] ∧
    eliminateDeadStores q = .ok { stats := [("removed", 0), ("rounds", 1)] } q := by
  have sound := (Surface.ProgramTree.lowered chainTree_lowers).1.sound
  obtain ⟨gone, rounds, q, result, _, cleared, again⟩ :=
    eliminateDeadStores_settles chainTree_lowers (by decide +kernel) fun f member _ => by
      have listed : chainProgram.registries.fns = [⟨1⟩] := by decide +kernel
      rw [listed, List.mem_singleton] at member
      exact (isLabelled_iff sound).mp (member ▸ by decide +kernel)
  have stats : (eliminateDeadStores.run' chainProgram).map (·.stats) =
      some [("removed", 2), ("rounds", 3)] := by decide +kernel
  delta EStateM.run' EStateM.run at stats
  rw [result] at stats
  simp only [Option.map_some, Option.some.injEq, List.cons.injEq, Prod.mk.injEq, true_and, and_true]
    at stats
  obtain ⟨removed, rfl⟩ := stats
  have swept : sweptFunctions q = [⟨1⟩] :=
    (sweptFunctions_eq cleared.erased).trans (by decide +kernel)
  obtain ⟨registered, inside⟩ := List.mem_filter.mp (swept ▸ List.mem_singleton_self _)
  rw [removed] at result
  rw [swept] at again
  exact ⟨gone, q, removed, result, cleared, cleared.clean registered (by simp_all), again⟩

end Store

end MiddleEnd
