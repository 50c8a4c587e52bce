import MiddleEnd.Proofs.Arena.Sound
import MiddleEnd.Proofs.Flow.Builder
import MiddleEnd.Proofs.Flow.Machine

namespace MiddleEnd.Flow

/-- A place in a graph: a block, and how many of its items are behind. -/
abbrev Spot := Nat × Nat

/-- The item that comes next. -/
def Shows (blocks : Array Block) (spot : Spot) (item : Item) : Prop :=
  (itemsAt blocks spot.1)[spot.2]? = some item

/-- No item comes next, and the block leads to these blocks. -/
def Leads (blocks : Array Block) (spot : Spot) (targets : List Nat) : Prop :=
  spot.2 = (itemsAt blocks spot.1).length ∧ succAt blocks spot.1 = targets

/-- One last item comes next, and then the block leads to these blocks. -/
def Parts (blocks : Array Block) (spot : Spot) (item : Item) (targets : List Nat) : Prop :=
  Shows blocks spot item ∧ Leads blocks (spot.1, spot.2 + 1) targets

section

variable (p : Program) (blocks : Array Block) (targets : String → Option Nat)

/-- `Laid p blocks targets loops stmts start stop marks`: the blocks have the code of some statements
from one spot to another. Around the statements are loops, of which it is known where they go on and
where they end. The labels of the whole body are at `targets`, and those of the statements, in the
order of the text, at `marks`. -/
inductive Laid : List (Nat × Nat) → List NodeId → Spot → Spot → List (String × Nat) → Prop
  | nil {loops : List (Nat × Nat)} {spot : Spot} : Laid loops [] spot spot []
  | block {loops : List (Nat × Nat)} {id : NodeId} {ids rest : List NodeId} {start mid stop : Spot}
      {inner marks : List (String × Nat)} : p.kind id = .block ids →
      Laid loops (p.children id) start mid inner → Laid loops rest mid stop marks →
      Laid loops (id :: rest) start stop (inner ++ marks)
  | cond {loops : List (Nat × Nat)} {id test thenBlock : NodeId} {rest : List NodeId}
      {start thenEnd stop : Spot} {thenStart join : Nat} {inner marks : List (String × Nat)} :
      p.kind id = .cond test thenBlock none → Parts blocks start (.branch test) [thenStart, join] →
      Laid loops (p.children thenBlock) (thenStart, 0) thenEnd inner → Leads blocks thenEnd [join] →
      Laid loops rest (join, 0) stop marks → Laid loops (id :: rest) start stop (inner ++ marks)
  | condElse {loops : List (Nat × Nat)} {id test thenBlock elseBlock : NodeId} {rest : List NodeId}
      {start thenEnd elseEnd stop : Spot} {thenStart elseStart join : Nat}
      {inner other marks : List (String × Nat)} : p.kind id = .cond test thenBlock (some elseBlock) →
      Parts blocks start (.branch test) [thenStart, elseStart] →
      Laid loops (p.children thenBlock) (thenStart, 0) thenEnd inner → Leads blocks thenEnd [join] →
      Laid loops (p.children elseBlock) (elseStart, 0) elseEnd other → Leads blocks elseEnd [join] →
      Laid loops rest (join, 0) stop marks →
      Laid loops (id :: rest) start stop (inner ++ (other ++ marks))
  | headed {loops : List (Nat × Nat)} {id body : NodeId} {item : Item} {rest : List NodeId}
      {start bodyEnd stop : Spot} {header bodyStart exit : Nat} {inner marks : List (String × Nat)} :
      Headed p id item body → Leads blocks start [header] →
      Parts blocks (header, 0) item [bodyStart, exit] →
      Laid ((header, exit) :: loops) (p.children body) (bodyStart, 0) bodyEnd inner →
      Leads blocks bodyEnd [header] → Laid loops rest (exit, 0) stop marks →
      Laid loops (id :: rest) start stop (inner ++ marks)
  | tested {loops : List (Nat × Nat)} {id test body : NodeId} {rest : List NodeId}
      {start bodyEnd stop : Spot} {bodyStart testBlock exit : Nat} {inner marks : List (String × Nat)} :
      p.kind id = .loop test body false → Leads blocks start [bodyStart] →
      Laid ((testBlock, exit) :: loops) (p.children body) (bodyStart, 0) bodyEnd inner →
      Leads blocks bodyEnd [testBlock] →
      Parts blocks (testBlock, 0) (.loopTest test) [bodyStart, exit] →
      Laid loops rest (exit, 0) stop marks → Laid loops (id :: rest) start stop (inner ++ marks)
  | ret {loops : List (Nat × Nat)} {id : NodeId} {value : Option NodeId} {rest : List NodeId}
      {start stop : Spot} {next : Nat} {marks : List (String × Nat)} : p.kind id = .ret value →
      Parts blocks start (.stmt id) [] → Laid loops rest (next, 0) stop marks →
      Laid loops (id :: rest) start stop marks
  | brk {loops : List (Nat × Nat)} {id : NodeId} {rest : List NodeId} {start stop : Spot} {next : Nat}
      {marks : List (String × Nat)} : p.kind id = .brk →
      Leads blocks start (loops.head?.map Prod.snd).toList → Laid loops rest (next, 0) stop marks →
      Laid loops (id :: rest) start stop marks
  | cont {loops : List (Nat × Nat)} {id : NodeId} {rest : List NodeId} {start stop : Spot} {next : Nat}
      {marks : List (String × Nat)} : p.kind id = .cont →
      Leads blocks start (loops.head?.map Prod.fst).toList → Laid loops rest (next, 0) stop marks →
      Laid loops (id :: rest) start stop marks
  | label {loops : List (Nat × Nat)} {id : NodeId} {name : String} {rest : List NodeId}
      {start stop : Spot} {next : Nat} {marks : List (String × Nat)} : p.kind id = .label name →
      Leads blocks start [next] → Laid loops rest (next, 0) stop marks →
      Laid loops (id :: rest) start stop ((name, next) :: marks)
  | goto {loops : List (Nat × Nat)} {id : NodeId} {name : String} {rest : List NodeId}
      {start stop : Spot} {target next : Nat} {marks : List (String × Nat)} :
      p.kind id = .goto name → targets name = some target → Leads blocks start [target] →
      Laid loops rest (next, 0) stop marks → Laid loops (id :: rest) start stop marks
  | fnDef {loops : List (Nat × Nat)} {id : NodeId} {rest : List NodeId} {start stop : Spot}
      {marks : List (String × Nat)} : (p.kind id).isFnDef = true → Laid loops rest start stop marks →
      Laid loops (id :: rest) start stop marks
  | simple {loops : List (Nat × Nat)} {id : NodeId} {rest : List NodeId} {start stop : Spot}
      {marks : List (String × Nat)} : (p.kind id).isSimple = true → Shows blocks start (.stmt id) →
      Laid loops rest (start.1, start.2 + 1) stop marks → Laid loops (id :: rest) start stop marks

end

variable {p : Program} {blocks : Array Block} {targets : String → Option Nat}

theorem Laid.append {loops : List (Nat × Nat)} {stmts others : List NodeId} {start mid stop : Spot}
    {first second : List (String × Nat)} (laid : Laid p blocks targets loops stmts start mid first)
    (rest : Laid p blocks targets loops others mid stop second) :
    Laid p blocks targets loops (stmts ++ others) start stop (first ++ second) := by
  induction laid with
  | nil => exact rest
  | block kind inside _ _ ih => 
    rw [List.append_assoc]
    exact .block kind inside (ih rest)
  | cond kind parts inside join _ _ ih => 
    rw [List.append_assoc]
    exact .cond kind parts inside join (ih rest)
  | condElse kind parts inside join other otherJoin _ _ _ ih =>
    rw [List.append_assoc, List.append_assoc]
    exact .condElse kind parts inside join other otherJoin (ih rest)
  | headed kind leads parts inside back _ _ ih =>
    rw [List.append_assoc]
    exact .headed kind leads parts inside back (ih rest)
  | tested kind leads inside back parts _ _ ih =>
    rw [List.append_assoc]
    exact .tested kind leads inside back parts (ih rest)
  | ret kind parts _ ih => exact .ret kind parts (ih rest)
  | brk kind leads _ ih => exact .brk kind leads (ih rest)
  | cont kind leads _ ih => exact .cont kind leads (ih rest)
  | label kind leads _ ih => exact .label kind leads (ih rest)
  | goto kind found leads _ ih => exact .goto kind found leads (ih rest)
  | fnDef kind _ ih => exact .fnDef kind (ih rest)
  | simple kind shows _ ih => exact .simple kind shows (ih rest)

namespace Builder

variable {b c d e : Builder} {id : NodeId}

/-- The spot at which the next item goes. -/
def here (b : Builder) : Spot := (b.current, (itemsAt b.blocks b.current).length)

/-- The blocks that are ahead of one builder and there in a later one are as they will be, apart from
what is still to come in the current one, and from the jumps, which lead on to the labels. -/
structure Final (blocks : Array Block) (targets : String → Option Nat) (b c : Builder) : Prop where
  items {x : Nat} : b.Ahead x → x < c.blocks.size → x ≠ c.current →
    itemsAt blocks x = itemsAt c.blocks x
  succ {x : Nat} : b.Ahead x → x < c.blocks.size → x ≠ c.current → (∀ j ∈ c.gotos, j.1 ≠ x) →
    succAt blocks x = succAt c.blocks x
  jump {j : Nat × String} : j ∈ c.gotos → b.Ahead j.1 →
    ∃ y, targets j.2 = some y ∧ succAt blocks j.1 = [y]
  so_far : itemsAt c.blocks c.current <+: itemsAt blocks c.current

namespace Final

theorem later (final : Final blocks targets b d) (grown : b.Grown c) : Final blocks targets c d where
  items ahead := final.items (grown.ahead grown.current ahead)
  succ ahead := final.succ (grown.ahead grown.current ahead)
  jump member ahead := final.jump member (grown.ahead grown.current ahead)
  so_far := final.so_far

theorem earlier (final : Final blocks targets b d) (first : b.Grown c) (second : c.Grown d) :
    Final blocks targets b c := by
  have behind {x : Nat} (known : x < c.blocks.size) (other : x ≠ c.current) : ¬ c.Ahead x := by
    simp only [Ahead]
    omega
  have apart {x : Nat} (known : x < c.blocks.size) (other : x ≠ c.current) : x ≠ d.current :=
    fun same => behind known other (same ▸ second.current)
  have size := second.size_le
  constructor
  case items =>
    intro x ahead known other
    rw [final.items ahead (by omega) (apart known other), second.items (behind known other)]
  case succ =>
    intro x ahead known other plain
    rw [final.succ ahead (by omega) (apart known other) (second.plain (behind known other) plain),
      second.succ (behind known other)]
  case jump => exact fun member ahead => final.jump (second.gotos_old member) ahead
  case so_far =>
    have known := second.toFollows.size_le
    by_cases same : c.current = d.current
    · exact (same ▸ second.added d.current).trans (same ▸ final.so_far)
    · have inside := first.opened.current_lt
      rw [final.items first.current (by omega) same]
      exact second.added c.current

/-- A block that the builder has gone away from is as it will be. -/
theorem leads (final : Final blocks targets b d) {x : Nat} {next : List Nat} (ahead : b.Ahead x)
    (known : x < d.blocks.size) (other : x ≠ d.current) (plain : ∀ j ∈ d.gotos, j.1 ≠ x)
    {place : Nat} (items : (itemsAt d.blocks x).length = place) (succ : succAt d.blocks x = next) :
    Leads blocks (x, place) next := by
  refine ⟨?_, ?_⟩
  · rw [final.items ahead known other, items]
  · rw [final.succ ahead known other plain, succ]

end Final

/-- Between two builders the code of some statements is built. -/
def Lays (p : Program) (b c : Builder) (stmts : List NodeId) : Prop :=
  ∃ marks, c.labels = marks.reverse ++ b.labels ∧ ∀ blocks targets, Final blocks targets b c →
    Laid p blocks targets b.loops stmts b.here c.here marks

namespace Lays

theorem append {stmts others : List NodeId} (grown : b.Grown c) (grownD : c.Grown d)
    (first : Lays p b c stmts) (second : Lays p c d others) : Lays p b d (stmts ++ others) := by
  obtain ⟨marks, labels, laid⟩ := first
  obtain ⟨later, labelsD, laidD⟩ := second
  refine ⟨marks ++ later, by simp [labels, labelsD], fun blocks targets final => ?_⟩
  have rest := laidD blocks targets (final.later grown)
  rw [grown.loops] at rest
  exact (laid blocks targets (final.earlier grown grownD)).append rest

theorem foldl {f : Builder → NodeId → Builder}
    (grows : ∀ (b : Builder) (id : NodeId), b.Open → b.Grown (f b id)) (stmts : List NodeId)
    (lays : ∀ id ∈ stmts, ∀ b : Builder, b.Open → Lays p b (f b id) [id]) (opened : b.Open) :
    Lays p b (stmts.foldl f b) stmts := by
  induction stmts generalizing b with
  | nil => exact ⟨[], rfl, fun _ _ _ => .nil⟩
  | cons id rest ih =>
    have first := grows b id opened
    have others := ih (fun id member => lays id (List.mem_cons_of_mem _ member)) first.opened
    have grown := Grown.foldl grows rest first.opened
    exact (lays id List.mem_cons_self b opened).append first grown others

theorem fnDef (kind : (p.kind id).isFnDef = true) : Lays p b b [id] :=
  ⟨[], rfl, fun _ _ _ => .fnDef kind .nil⟩

theorem block {ids : List NodeId} (kind : p.kind id = .block ids) (lays : Lays p b c (p.children id)) :
    Lays p b c [id] := by
  obtain ⟨marks, labels, laid⟩ := lays
  refine ⟨marks, labels, fun blocks targets final => ?_⟩
  simpa using Laid.block kind (laid blocks targets final) .nil

end Lays

theorem here_push (opened : b.Open) (item : Item) :
    (b.push item).here = (b.here.1, b.here.2 + 1) := by
  simp [here, itemsAt_push, opened.current_lt]

theorem here_of_fresh {x : Nat} (current : b.current = x) (fresh : itemsAt b.blocks x = []) :
    b.here = (x, 0) := by
  rw [here, current, fresh, List.length_nil]

theorem here_afterJump (b : Builder) : b.afterJump.here = (b.blocks.size, 0) :=
  here_of_fresh rfl (by simpa [afterJump, newBlock, goTo] using itemsAt_beyond (Nat.le_refl _))

theorem shows_of_start {blocks : Array Block} {x : Nat} {items : List Item} {item : Item}
    (added : items ++ [item] <+: itemsAt blocks x) : Shows blocks (x, items.length) item := by
  obtain ⟨rest, eq⟩ := added
  simp [Shows, ← eq]

namespace Final

/-- A jump ends the current block. -/
theorem ended_items (final : Final blocks targets b c.afterJump) (current : c.current = b.current)
    (known : c.current < c.blocks.size) :
    itemsAt blocks b.current = itemsAt c.blocks b.current := by
  rw [final.items (.inl rfl)] <;> simp [afterJump, newBlock, goTo] <;> omega

theorem ended_succ (final : Final blocks targets b c.afterJump) (current : c.current = b.current)
    (known : c.current < c.blocks.size) (plain : ∀ j ∈ c.gotos, j.1 ≠ b.current) :
    succAt blocks b.current = succAt c.blocks b.current := by
  rw [final.succ (.inl rfl)]
  · simp [afterJump, newBlock, goTo]
  · simp [afterJump, newBlock, goTo]
    omega
  · simp [afterJump, newBlock, goTo]
    omega
  · exact plain

end Final

namespace Lays

theorem simple (kind : (p.kind id).isSimple = true) (opened : b.Open) :
    Lays p b (b.push (.stmt id)) [id] := by
  refine ⟨[], rfl, fun blocks targets final => .simple kind ?_ (here_push opened _ ▸ .nil)⟩
  have so_far := final.so_far
  rw [current_push, itemsAt_push, if_pos ⟨rfl, opened.current_lt⟩] at so_far
  exact shows_of_start so_far

theorem ret {value : Option NodeId} (kind : p.kind id = .ret value) (opened : b.Open) :
    Lays p b (b.push (.stmt id)).afterJump [id] := by
  refine ⟨[], rfl, fun blocks targets final => ?_⟩
  have pushed := (opened.push (.stmt id)).opened
  have items := final.ended_items rfl pushed.current_lt
  have succ := final.ended_succ rfl pushed.current_lt fun j member => opened.gotos_ne member
  rw [itemsAt_push, if_pos ⟨rfl, opened.current_lt⟩] at items
  rw [succAt_push, opened.ends] at succ
  rw [here_afterJump]
  exact .ret kind ⟨shows_of_start (items ▸ List.prefix_rfl), by simp [here, items], succ⟩ .nil

/-- A jump to where a loop goes on, or to where it ends. -/
theorem leads_of_leave (opened : b.Open) {target : Nat}
    (final : Final blocks targets b (b.edge b.current target).afterJump) :
    Leads blocks b.here [target] := by
  have known : (b.edge b.current target).current < (b.edge b.current target).blocks.size := by
    simpa using opened.current_lt
  have items := final.ended_items (by simp) known
  have succ := final.ended_succ (by simp) known fun j member => opened.gotos_ne (by simpa using member)
  rw [itemsAt_edge] at items
  rw [succAt_edge, if_pos ⟨rfl, opened.current_lt, by simp [opened.ends]⟩, opened.ends] at succ
  exact ⟨by simp [here, items], succ⟩

theorem leads_of_stop (opened : b.Open) (final : Final blocks targets b b.afterJump) :
    Leads blocks b.here [] := by
  have items := final.ended_items rfl opened.current_lt
  have succ := final.ended_succ rfl opened.current_lt fun j member => opened.gotos_ne member
  exact ⟨by simp [here, items], succ.trans opened.ends⟩

theorem brk (kind : p.kind id = .brk) (opened : b.Open) :
    Lays p b (match b.loops.head? with
      | some (_, exit) => (b.edge b.current exit).afterJump
      | none => b.afterJump) [id] := by
  cases found : b.loops.head? with
  | none =>
    refine ⟨[], rfl, fun blocks targets final => ?_⟩
    dsimp only at final ⊢
    rw [here_afterJump]
    exact .brk kind (by simpa [found] using leads_of_stop opened final) .nil
  | some l =>
    refine ⟨[], by simp [afterJump, newBlock, goTo], fun blocks targets final => ?_⟩
    dsimp only at final ⊢
    rw [here_afterJump]
    exact .brk kind (by simpa [found] using leads_of_leave opened final) .nil

theorem cont (kind : p.kind id = .cont) (opened : b.Open) :
    Lays p b (match b.loops.head? with
      | some (next, _) => (b.edge b.current next).afterJump
      | none => b.afterJump) [id] := by
  cases found : b.loops.head? with
  | none =>
    refine ⟨[], rfl, fun blocks targets final => ?_⟩
    dsimp only at final ⊢
    rw [here_afterJump]
    exact .cont kind (by simpa [found] using leads_of_stop opened final) .nil
  | some l =>
    refine ⟨[], by simp [afterJump, newBlock, goTo], fun blocks targets final => ?_⟩
    dsimp only at final ⊢
    rw [here_afterJump]
    exact .cont kind (by simpa [found] using leads_of_leave opened final) .nil

theorem goto {name : String} (kind : p.kind id = .goto name) (opened : b.Open) :
    Lays p b ({ b with gotos := b.gotos ++ [(b.current, name)] } : Builder).afterJump [id] := by
  refine ⟨[], rfl, fun blocks targets final => ?_⟩
  have items := final.ended_items rfl opened.current_lt
  obtain ⟨target, found, succ⟩ := final.jump (j := (b.current, name))
    (by simp [afterJump, newBlock, goTo]) (.inl rfl)
  rw [here_afterJump]
  exact .goto kind found ⟨by simp [here, items], succ⟩ .nil

theorem label {name : String} (kind : p.kind id = .label name) (opened : b.Open) :
    Lays p b { b.arm b.current with
      labels := (name, b.blocks.size) :: (b.arm b.current).labels } [id] := by
  refine ⟨[(name, b.blocks.size)], by simp, fun blocks targets final => ?_⟩
  have inside := opened.current_lt
  have known : b.current < (b.arm b.current).blocks.size := by simpa using Nat.lt_succ_of_lt inside
  have apart : b.current ≠ (b.arm b.current).current := Nat.ne_of_lt inside
  have items := final.items (.inl rfl) known apart
  have succ := final.succ (.inl rfl) known apart fun j member => opened.gotos_ne (by simpa using member)
  rw [succAt_arm opened.toSane inside, if_pos rfl, opened.ends] at succ
  rw [itemsAt_arm] at items
  rw [here_of_fresh (b := { b.arm b.current with
      labels := (name, b.blocks.size) :: (b.arm b.current).labels }) rfl
    ((itemsAt_arm).trans (itemsAt_beyond (Nat.le_refl _)))]
  exact .label kind ⟨by simp [here, items], succ⟩ .nil

end Lays

/-- The code goes on from the end of a part at block `x`; of the other blocks there, only those that
are touched have changed. -/
structure GoesOn (c d : Builder) (x : Nat) (touched : Nat → Prop) : Prop where
  size_le : c.blocks.size ≤ d.blocks.size
  current : touched d.current
  items {z : Nat} : ¬ touched z → itemsAt d.blocks z = itemsAt c.blocks z
  succ {z : Nat} : ¬ touched z →
    succAt d.blocks z = if z = c.current then [x] else succAt c.blocks z
  gotos {j : Nat × String} : ¬ touched j.1 → (j ∈ d.gotos ↔ j ∈ c.gotos)

namespace Final

variable {x z : Nat} {touched : Nat → Prop}

theorem not_current (goesOn : c.GoesOn d x touched) (untouched : ¬ touched z) : z ≠ d.current :=
  fun same => untouched (same ▸ goesOn.current)

/-- Of the blocks of a part, nothing is still to come once the code goes on elsewhere. -/
theorem part (final : Final blocks targets b d) (goesOn : c.GoesOn d x touched) (grown : e.Grown c)
    (ahead : ∀ z, e.Ahead z → b.Ahead z)
    (untouched : ∀ z, e.Ahead z → z < c.blocks.size → ¬ touched z) : Final blocks targets e c where
  items {z} aheadZ known _ := by
    have same := untouched z aheadZ known
    rw [final.items (ahead z aheadZ) (Nat.lt_of_lt_of_le known goesOn.size_le)
      (not_current goesOn same), goesOn.items same]
  succ {z} aheadZ known other plain := by
    have same := untouched z aheadZ known
    rw [final.succ (ahead z aheadZ) (Nat.lt_of_lt_of_le known goesOn.size_le)
      (not_current goesOn same), goesOn.succ same, if_neg other]
    rintro j member rfl
    exact plain j ((goesOn.gotos same).mp member) rfl
  jump {j} member aheadJ :=
    have same := untouched j.1 aheadJ (grown.opened.gotos_lt member)
    final.jump ((goesOn.gotos same).mpr member) (ahead _ aheadJ)
  so_far := by
    have known := grown.opened.current_lt
    have same := untouched c.current grown.current known
    have whole := final.items (ahead _ grown.current) (Nat.lt_of_lt_of_le known goesOn.size_le)
      (not_current goesOn same)
    exact (whole.trans (goesOn.items same)) ▸ List.prefix_rfl

theorem leads_end (final : Final blocks targets b d) (goesOn : c.GoesOn d x touched)
    (grown : e.Grown c) (ahead : ∀ z, e.Ahead z → b.Ahead z)
    (untouched : ∀ z, e.Ahead z → z < c.blocks.size → ¬ touched z) : Leads blocks c.here [x] := by
  have known := grown.opened.current_lt
  have same := untouched c.current grown.current known
  refine final.leads (ahead _ grown.current) (Nat.lt_of_lt_of_le known goesOn.size_le)
    (not_current goesOn same) ?_ (by rw [goesOn.items same]) (by rw [goesOn.succ same, if_pos rfl])
  rintro j member here
  exact grown.opened.gotos_ne ((goesOn.gotos (here ▸ same)).mp member) here

/-- A block that was there when a part began, and was not touched when the code went on. -/
theorem behind (final : Final blocks targets b d) (goesOn : c.GoesOn d x touched) (grown : e.Grown c)
    (ahead : b.Ahead z) (behind : ¬ e.Ahead z) (known : z < c.blocks.size) (same : ¬ touched z)
    (plain : ∀ j ∈ e.gotos, j.1 ≠ z) :
    itemsAt blocks z = itemsAt e.blocks z ∧ succAt blocks z = succAt e.blocks z := by
  have knownD := Nat.lt_of_lt_of_le known goesOn.size_le
  have plainD : ∀ j ∈ d.gotos, j.1 ≠ z := by
    rintro j member rfl
    exact grown.plain behind plain j ((goesOn.gotos same).mp member) rfl
  have other : z ≠ c.current := by
    rintro rfl
    exact behind grown.current
  constructor
  · rw [final.items ahead knownD (not_current goesOn same), goesOn.items same, grown.items behind]
  · rw [final.succ ahead knownD (not_current goesOn same) plainD, goesOn.succ same, if_neg other,
      grown.succ behind]

end Final

theorem goesOn_close (opened : c.Open) {x y : Nat} : c.GoesOn (c.close x y) x (· = y) where
  size_le := by simp
  current := rfl
  items _ := itemsAt_close
  succ _ := succAt_close opened
  gotos _ := by simp

namespace Lays

theorem headedLoop {item : Item} {body : NodeId} {inner : Builder → Builder}
    (head : Headed p id item body) (opened : b.Open)
    (grows : ∀ b : Builder, b.Open → b.Grown (inner b))
    (lays : ∀ b : Builder, b.Open → Lays p b (inner b) (p.children body)) :
    Lays p b (b.headedLoop item inner) [id] := by
  rw [headedLoop_eq]
  have start := opened.enterHeaded item
  have grown := grows _ start
  obtain ⟨marks, labels, laid⟩ := lays _ start
  refine ⟨marks, by simp [labels], fun blocks targets final => ?_⟩
  have goesOn := goesOn_close (x := b.blocks.size) (y := b.blocks.size + 2) grown.opened
  have inside := opened.current_lt
  have size := grown.size_le
  rw [size_enterHeaded] at size
  have ahead (z : Nat) (later : (b.enterHeaded item).Ahead z) : b.Ahead z := by
    simp only [Ahead, size_enterHeaded, current_enterHeaded] at later ⊢
    omega
  have untouched (z : Nat) (later : (b.enterHeaded item).Ahead z)
      (_ : z < (inner (b.enterHeaded item)).blocks.size) : z ≠ b.blocks.size + 2 := by
    simp only [Ahead, size_enterHeaded, current_enterHeaded] at later
    omega
  have behind {z : Nat} (old : z ≤ b.blocks.size) : ¬ (b.enterHeaded item).Ahead z := by
    simp only [Ahead, size_enterHeaded, current_enterHeaded]
    omega
  obtain ⟨before, leads⟩ := final.behind goesOn grown (.inl rfl) (behind (by omega)) (by omega)
    (by omega) fun j member => opened.gotos_ne (by simpa using member)
  obtain ⟨header, forks⟩ := final.behind (z := b.blocks.size) goesOn grown (.inr (Nat.le_refl _))
    (behind (Nat.le_refl _)) (by omega) (by omega)
    fun j member => Nat.ne_of_lt (opened.gotos_lt (by simpa using member))
  have code := laid blocks targets (final.part goesOn grown ahead untouched)
  have back := final.leads_end goesOn grown ahead untouched
  rw [itemsAt_enterHeaded, if_neg (by omega)] at before
  rw [succAt_enterHeaded item opened, if_pos rfl] at leads
  rw [itemsAt_enterHeaded, if_pos rfl] at header
  rw [succAt_enterHeaded item opened, if_neg (by omega), if_pos rfl] at forks
  have startHere : (b.enterHeaded item).here = (b.blocks.size + 1, 0) := by
    refine here_of_fresh rfl ?_
    rw [itemsAt_enterHeaded, if_neg (by omega), itemsAt_beyond (by omega)]
  have stopHere : ((inner (b.enterHeaded item)).close b.blocks.size (b.blocks.size + 2)).here =
      (b.blocks.size + 2, 0) := by
    refine here_of_fresh rfl ?_
    rw [itemsAt_close, grown.items (by simp [Ahead]), itemsAt_enterHeaded, if_neg (by omega),
      itemsAt_beyond (by omega)]
  rw [startHere, loops_enterHeaded] at code
  rw [stopHere, ← List.append_nil marks]
  exact .headed head ⟨by simp [here, before], leads⟩ ⟨by simp [Shows, header], by simp [header], forks⟩
    code back .nil

theorem testedLoop {test body : NodeId} {inner : Builder → Builder}
    (kind : p.kind id = .loop test body false) (opened : b.Open)
    (grows : ∀ b : Builder, b.Open → b.Grown (inner b))
    (lays : ∀ b : Builder, b.Open → Lays p b (inner b) (p.children body)) :
    Lays p b (b.testedLoop (.loopTest test) inner) [id] := by
  rw [testedLoop_eq]
  have grown := grows _ opened.enterTested
  obtain ⟨marks, labels, laid⟩ := lays _ opened.enterTested
  have toTest := opened.toTest grown
  obtain ⟨testKnown, testOther, testItems, testEnds, testPlain⟩ := opened.untouched grown (.inl rfl)
  obtain ⟨_, exitOther, exitItems, _⟩ := opened.untouched grown (.inr rfl)
  refine ⟨marks, by simp [labels], fun blocks targets final => ?_⟩
  generalize inner b.enterTested = c at *
  have inside := opened.current_lt
  have size := grown.size_le
  rw [size_enterTested] at size
  have goesOn : c.GoesOn
      (((c.close (b.blocks.size + 1) (b.blocks.size + 1)).push (.loopTest test)).fork b.blocks.size
        (b.blocks.size + 2)) (b.blocks.size + 1)
      fun z => z = b.blocks.size + 1 ∨ z = b.blocks.size + 2 := by
    constructor
    case size_le => simp
    case current => exact .inr rfl
    case items =>
      intro z same
      rw [itemsAt_fork, itemsAt_push, if_neg fun here => same (.inl here.1), itemsAt_close]
    case succ =>
      intro z same
      rw [succAt_fork (toTest.push _).opened (by omega), current_push, current_close,
        if_neg fun here => same (.inl here), succAt_push, succAt_close grown.opened]
    case gotos => simp
  have ahead (z : Nat) (later : b.enterTested.Ahead z) : b.Ahead z := by
    simp only [Ahead, size_enterTested, current_enterTested] at later ⊢
    omega
  have untouched (z : Nat) (later : b.enterTested.Ahead z) (_ : z < c.blocks.size) :
      ¬ (z = b.blocks.size + 1 ∨ z = b.blocks.size + 2) := by
    simp only [Ahead, size_enterTested, current_enterTested] at later
    omega
  obtain ⟨before, leads⟩ := final.behind goesOn grown (.inl rfl)
    (by simp [Ahead]; omega) (by omega) (by omega)
    fun j member => opened.gotos_ne (by simpa using member)
  have code := laid blocks targets (final.part goesOn grown ahead untouched)
  have back := final.leads_end goesOn grown ahead untouched
  have testFinal := final.items (x := b.blocks.size + 1) (.inr (by omega)) (by simpa using testKnown)
    (by simp)
  have testLeads := final.succ (x := b.blocks.size + 1) (.inr (by omega)) (by simpa using testKnown)
    (by simp) (by simpa using testPlain)
  rw [itemsAt_fork, itemsAt_push, if_pos (by simpa using testKnown), itemsAt_close, testItems,
    List.nil_append] at testFinal
  rw [succAt_fork (toTest.push _).opened (by omega), if_pos (by simp)] at testLeads
  rw [itemsAt_enterTested] at before
  rw [succAt_enterTested opened, if_pos rfl] at leads
  have startHere : b.enterTested.here = (b.blocks.size, 0) :=
    here_of_fresh rfl (by rw [itemsAt_enterTested, itemsAt_beyond (Nat.le_refl _)])
  have stopHere : (((c.close (b.blocks.size + 1) (b.blocks.size + 1)).push (.loopTest test)).fork
      b.blocks.size (b.blocks.size + 2)).here = (b.blocks.size + 2, 0) :=
    here_of_fresh rfl (by simp [itemsAt_push, exitItems])
  rw [startHere, loops_enterTested] at code
  rw [stopHere, ← List.append_nil marks]
  exact .tested kind ⟨by simp [here, before], leads⟩ code back
    ⟨by simp [Shows, testFinal], by simp [testFinal], testLeads⟩ .nil

end Lays

/-- The block of a condition, once the first branch is there: its items and where it leads. -/
theorem branch_of_grown (opened : b.Open) (item : Item) (grown : (b.enterThen item).Grown c) :
    b.current < c.blocks.size ∧ b.current ≠ c.current ∧
      itemsAt c.blocks b.current = itemsAt b.blocks b.current ++ [item] ∧
      succAt c.blocks b.current = [b.blocks.size] ∧ ∀ j ∈ c.gotos, j.1 ≠ b.current := by
  have inside := opened.current_lt
  have size := grown.size_le
  have behind : ¬ (b.enterThen item).Ahead b.current := by
    simp [Ahead]
    omega
  simp only [enterThen, size_arm, size_push] at size
  refine ⟨by omega, fun same => behind (same ▸ grown.current), ?_, ?_, ?_⟩
  · rw [grown.items behind, itemsAt_arm, itemsAt_push, if_pos ⟨rfl, inside⟩]
  · rw [grown.succ behind, succAt_arm (opened.push item).opened.toSane (by simpa using inside),
      if_pos rfl, succAt_push, opened.ends, size_push, List.nil_append]
  · exact grown.plain behind fun j member => opened.gotos_ne (by simpa using member)

theorem here_enterThen (item : Item) : (b.enterThen item).here = (b.blocks.size, 0) := by
  refine here_of_fresh (by simp) ?_
  rw [itemsAt_arm, itemsAt_push, if_neg, itemsAt_beyond (Nat.le_refl _)]
  omega

theorem here_join (x y : Nat) : (b.join x y).here = (b.blocks.size, 0) :=
  here_of_fresh rfl (by rw [itemsAt_join, itemsAt_beyond (Nat.le_refl _)])

namespace Lays

theorem cond {test thenBlock : NodeId} {thenInner : Builder → Builder}
    (kind : p.kind id = .cond test thenBlock none) (opened : b.Open)
    (grows : ∀ b : Builder, b.Open → b.Grown (thenInner b))
    (lays : ∀ b : Builder, b.Open → Lays p b (thenInner b) (p.children thenBlock)) :
    Lays p b (b.choice (.branch test) thenInner none) [id] := by
  rw [choice_none_eq]
  have start := opened.enterThen (.branch test)
  have grown := grows _ start
  obtain ⟨marks, labels, laid⟩ := lays _ start
  obtain ⟨known, other, items, succ, plain⟩ := branch_of_grown opened (.branch test) grown
  refine ⟨marks, by simp [labels], fun blocks targets final => ?_⟩
  dsimp only at final ⊢
  generalize thenInner (b.enterThen (.branch test)) = c at *
  have currentLt := grown.opened.current_lt
  have size := grown.size_le
  simp only [enterThen, size_arm, size_push] at size
  have joined {z : Nat} := succAt_join (z := z) grown.opened.toSane currentLt known (Ne.symm other)
  have goesOn : c.GoesOn (c.join c.current b.current) c.blocks.size
      fun z => z = b.current ∨ z = c.blocks.size := by
    constructor
    case size_le => simp
    case current => exact .inr rfl
    case items => exact fun _ => itemsAt_join
    case succ =>
      intro z same
      rw [joined]
      by_cases here : z = c.current
      · rw [if_pos (.inl here), if_pos here, here, grown.opened.ends, List.nil_append]
      · rw [if_neg (by tauto), if_neg here]
    case gotos => simp
  have ahead (z : Nat) (later : (b.enterThen (.branch test)).Ahead z) : b.Ahead z := by
    simp [Ahead] at later ⊢
    omega
  have untouched (z : Nat) (later : (b.enterThen (.branch test)).Ahead z) (_ : z < c.blocks.size) :
      ¬ (z = b.current ∨ z = c.blocks.size) := by
    have inside := opened.current_lt
    simp [Ahead] at later
    omega
  have code := laid blocks targets (final.part goesOn grown ahead untouched)
  have thenLeads := final.leads_end goesOn grown ahead untouched
  have branchItems := final.items (x := b.current) (.inl rfl) (by simp; omega) (by simp; omega)
  have branchSucc := final.succ (x := b.current) (.inl rfl) (by simp; omega) (by simp; omega)
    (by simpa using plain)
  rw [itemsAt_join, items] at branchItems
  rw [joined, if_pos (.inr rfl), succ] at branchSucc
  rw [here_enterThen, loops_arm, loops_push] at code
  rw [here_join, ← List.append_nil marks]
  exact .cond kind ⟨shows_of_start (branchItems ▸ List.prefix_rfl), by simp [here, branchItems],
    branchSucc⟩ code thenLeads .nil

theorem condElse {test thenBlock elseBlock : NodeId} {thenInner elseInner : Builder → Builder}
    (kind : p.kind id = .cond test thenBlock (some elseBlock)) (opened : b.Open)
    (grows : ∀ b : Builder, b.Open → b.Grown (thenInner b))
    (lays : ∀ b : Builder, b.Open → Lays p b (thenInner b) (p.children thenBlock))
    (growsElse : ∀ b : Builder, b.Open → b.Grown (elseInner b))
    (laysElse : ∀ b : Builder, b.Open → Lays p b (elseInner b) (p.children elseBlock)) :
    Lays p b (b.choice (.branch test) thenInner (some elseInner)) [id] := by
  rw [choice_some_eq]
  have start := opened.enterThen (.branch test)
  have grown := grows _ start
  obtain ⟨marks, labels, laid⟩ := lays _ start
  obtain ⟨known, other, items, succ, plain⟩ := branch_of_grown opened (.branch test) grown
  generalize thenInner (b.enterThen (.branch test)) = c at *
  have inside := opened.current_lt
  have currentLt := grown.opened.current_lt
  have startElse := Open.arm grown.opened.toSane known plain
  have grownElse := growsElse _ startElse
  obtain ⟨marksElse, labelsElse, laidElse⟩ := laysElse _ startElse
  refine ⟨marks ++ marksElse, by simp [labels, labelsElse], fun blocks targets final => ?_⟩
  dsimp only at final ⊢
  generalize elseInner (c.arm b.current) = d at *
  have thenEnd : ¬ (c.arm b.current).Ahead c.current := by
    simp [Ahead]
    omega
  have branch : ¬ (c.arm b.current).Ahead b.current := by
    simp [Ahead]
    omega
  have behind {z : Nat} (old : z < c.blocks.size) : ¬ (c.arm b.current).Ahead z := by
    simp [Ahead]
    omega
  have sizeElse := grownElse.size_le
  rw [size_arm] at sizeElse
  have elseLt := grownElse.opened.current_lt
  have elseNew : c.blocks.size ≤ d.current := by
    have later := grownElse.current
    simp [Ahead] at later
    omega
  have joined {z : Nat} := succAt_join (z := z) grownElse.opened.toSane
    (x := c.current) (y := d.current) (by omega) elseLt (by omega)
  have size := grown.size_le
  simp only [enterThen, size_arm, size_push] at size
  -- What the second branch leaves of the blocks before it.
  have kept {z : Nat} (old : z < c.blocks.size) : itemsAt d.blocks z = itemsAt c.blocks z ∧
      succAt d.blocks z =
        if z = b.current then succAt c.blocks z ++ [c.blocks.size] else succAt c.blocks z := by
    rw [grownElse.items (behind old), itemsAt_arm, grownElse.succ (behind old),
      succAt_arm grown.opened.toSane known]
    exact ⟨rfl, rfl⟩
  have goesOn : c.GoesOn (d.join c.current d.current) d.blocks.size
      fun z => z = b.current ∨ c.blocks.size ≤ z := by
    constructor
    case size_le => simp; omega
    case current => exact .inr (by simp; omega)
    case items =>
      intro z same
      rw [itemsAt_join, (kept (by omega)).1]
    case succ =>
      intro z same
      rw [joined, (kept (by omega)).2, if_neg fun here => same (.inl here)]
      by_cases here : z = c.current
      · rw [if_pos (.inl here), if_pos here, here, grown.opened.ends, List.nil_append]
      · rw [if_neg (by omega), if_neg here]
    case gotos =>
      intro j same
      rw [gotos_join]
      refine ⟨fun member => ?_, fun member => grownElse.gotos_old (by simpa using member)⟩
      rcases grownElse.gotos_new member with old | new
      · simpa using old
      · exact absurd new (behind (by omega))
  have goesOnElse : d.GoesOn (d.join c.current d.current) d.blocks.size
      fun z => z = c.current ∨ z = d.blocks.size := by
    constructor
    case size_le => simp
    case current => exact .inr rfl
    case items => exact fun _ => itemsAt_join
    case succ =>
      intro z same
      rw [joined]
      by_cases here : z = d.current
      · rw [if_pos (.inr here), if_pos here, here, grownElse.opened.ends, List.nil_append]
      · rw [if_neg (by tauto), if_neg here]
    case gotos => simp
  have ahead (z : Nat) (later : (b.enterThen (.branch test)).Ahead z) : b.Ahead z := by
    simp [Ahead] at later ⊢
    omega
  have untouched (z : Nat) (later : (b.enterThen (.branch test)).Ahead z) (_ : z < c.blocks.size) :
      ¬ (z = b.current ∨ c.blocks.size ≤ z) := by
    simp [Ahead] at later
    omega
  have aheadElse (z : Nat) (later : (c.arm b.current).Ahead z) : b.Ahead z := by
    simp [Ahead] at later ⊢
    omega
  have untouchedElse (z : Nat) (later : (c.arm b.current).Ahead z) (_ : z < d.blocks.size) :
      ¬ (z = c.current ∨ z = d.blocks.size) := by
    simp [Ahead] at later
    omega
  have code := laid blocks targets (final.part goesOn grown ahead untouched)
  have thenLeads := final.leads_end goesOn grown ahead untouched
  have codeElse := laidElse blocks targets (final.part goesOnElse grownElse aheadElse untouchedElse)
  have elseLeads := final.leads_end goesOnElse grownElse aheadElse untouchedElse
  have plainElse := grownElse.plain branch (by simpa using plain)
  have branchItems := final.items (x := b.current) (.inl rfl) (by simp; omega) (by simp; omega)
  have branchSucc := final.succ (x := b.current) (.inl rfl) (by simp; omega) (by simp; omega)
    (by simpa using plainElse)
  rw [itemsAt_join, (kept known).1, items] at branchItems
  rw [joined, if_neg (by omega), (kept known).2, if_pos rfl, succ] at branchSucc
  have startElseHere : (c.arm b.current).here = (c.blocks.size, 0) :=
    here_of_fresh rfl (by rw [itemsAt_arm, itemsAt_beyond (Nat.le_refl _)])
  rw [here_enterThen, loops_arm, loops_push] at code
  rw [startElseHere, loops_arm, grown.loops, loops_arm, loops_push] at codeElse
  rw [here_join, ← List.append_nil marksElse]
  exact .condElse kind ⟨shows_of_start (branchItems ▸ List.prefix_rfl), by simp [here, branchItems],
    branchSucc⟩ code thenLeads codeElse elseLeads .nil

/-- Down to a depth that no path below the statement exceeds, the code of the whole statement is
built. -/
theorem stmt (forest : p.Forest) {depth : Nat} (live : p.Live id)
    (room : p.nodes.size - (p.path id).length < depth) (opened : b.Open) :
    Lays p b (Builder.stmt p depth id b) [id] := by
  induction depth generalizing id b with
  | zero => omega
  | succ depth ih =>
    have grows (block : NodeId) (b : Builder) (opened : b.Open) :
        b.Grown ((p.children block).foldl (fun b child => Builder.stmt p depth child b) b) :=
      Grown.foldl (fun _ child opened => opened.stmt depth child) _ opened
    have inside {block : NodeId} (liveBlock : p.Live block)
        (roomBlock : p.nodes.size - (p.path block).length < depth + 1) (b : Builder) (opened : b.Open) :
        Lays p b ((p.children block).foldl (fun b child => Builder.stmt p depth child b) b)
          (p.children block) := by
      refine foldl (fun _ child opened => opened.stmt depth child) _ (fun c child b opened => ?_) opened
      have closer := forest.room_child liveBlock child
      exact ih (forest.child_live liveBlock child) (by omega) opened
    have below (block : NodeId) (child : block ∈ p.children id) :
        p.Live block ∧ p.nodes.size - (p.path block).length < depth + 1 :=
      ⟨forest.child_live live child, Nat.lt_trans (forest.room_child live child) room⟩
    have children {kind : NodeKind} (is : p.kind id = kind) : p.children id = kind.children :=
      congrArg NodeKind.children is
    rw [Builder.stmt]
    cases kind : p.kind id with
    | block ids => exact .block kind (inside live room b opened)
    | cond test thenBlock elseBlock =>
      obtain ⟨liveThen, roomThen⟩ := below thenBlock
        (by simp [children kind, NodeKind.children])
      cases elseBlock with
      | none => exact cond kind opened (grows _) (inside liveThen roomThen)
      | some elseBlock =>
        obtain ⟨liveElse, roomElse⟩ := below elseBlock
          (by simp [children kind, NodeKind.children])
        exact condElse kind opened (grows _) (inside liveThen roomThen) (grows _)
          (inside liveElse roomElse)
    | loop test body testFirst =>
      obtain ⟨liveBody, roomBody⟩ := below body
        (by simp [children kind, NodeKind.children])
      cases testFirst with
      | true => exact headedLoop (.loop kind) opened (grows _) (inside liveBody roomBody)
      | false => exact testedLoop kind opened (grows _) (inside liveBody roomBody)
    | forLoop index iterable body =>
      obtain ⟨liveBody, roomBody⟩ := below body
        (by simp [children kind, NodeKind.children])
      exact headedLoop (.forLoop kind) opened (grows _) (inside liveBody roomBody)
    | ret value => exact ret kind opened
    | brk => exact brk kind opened
    | cont => exact cont kind opened
    | label name => exact label kind opened
    | goto name => exact goto kind opened
    | fnDef sym formals body => exact fnDef (by rw [kind]; rfl)
    | symRef | call | namedArg | literal | prim | assign | define =>
      exact simple (by rw [kind]; rfl) opened

/-- The code of a body starts at the first block. -/
theorem stmts (forest : p.Forest) {body : NodeId} (live : p.Live body) :
    Lays p {} (Builder.stmts p body {}) (p.children body) := by
  refine foldl (fun _ child opened => opened.stmt _ child) _ (fun c child b opened => ?_) open_empty
  exact stmt forest (forest.child_live live child) (by omega) opened

end Lays

end Builder

/-- The graph of a function has the code of its body, from the start of the first block to the end of
some block that leads nowhere. The labels are where the code says, and of several labels of a name
the last one counts. -/
theorem Graph.laid_of_build {f : SymbolId} {g : Graph} (forest : p.Forest)
    (built : Graph.build p f = .ok g) (bodies : ∀ body, p.fnBody? f = some body → p.Live body) :
    ∃ body marks stop, p.fnBody? f = some body ∧
      Laid p g.blocks (marks.reverse.lookup ·) [] (p.children body) (0, 0) stop marks ∧
      Leads g.blocks stop [] := by
  obtain ⟨body, found, resolved, _⟩ := Graph.resolved_of_build built
  have opened := (Builder.stmts_grown (p := p) body).opened
  obtain ⟨marks, labels, laid⟩ := Builder.Lays.stmts forest (bodies body found)
  have none : (({} : Builder)).labels = [] := rfl
  rw [none, List.append_nil] at labels
  refine ⟨body, marks, (Builder.stmts p body {}).here, found, laid g.blocks _ ?_, ?_⟩
  · constructor
    case items => exact fun _ _ _ => resolved.items _
    case succ => exact fun _ _ _ plain => resolved.succ plain
    case jump => exact fun member _ => labels ▸ resolved.jump member
    case so_far => exact (resolved.items _) ▸ List.prefix_rfl
  · refine ⟨by rw [resolved.items]; rfl, ?_⟩
    exact (resolved.succ fun j member => opened.gotos_ne member).trans opened.ends

end MiddleEnd.Flow
