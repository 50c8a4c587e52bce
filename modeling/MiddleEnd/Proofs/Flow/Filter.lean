import MiddleEnd.Proofs.Flow.Builder

namespace MiddleEnd.Flow

/-- A block with some of its items only. -/
def Block.keep (keep : Item → Bool) (block : Block) : Block :=
  { block with items := block.items.filter keep }

namespace Builder

/-- A builder with some of its items only. -/
def keep (keep : Item → Bool) (b : Builder) : Builder :=
  { b with blocks := b.blocks.map (Block.keep keep) }

variable {k : Item → Bool} {b c : Builder} {item : Item}

@[simp] theorem size_keep : (b.keep k).blocks.size = b.blocks.size := by simp [keep]

@[simp] theorem current_keep : (b.keep k).current = b.current := rfl

@[simp] theorem loops_keep : (b.keep k).loops = b.loops := rfl

@[simp] theorem labels_keep : (b.keep k).labels = b.labels := rfl

@[simp] theorem gotos_keep : (b.keep k).gotos = b.gotos := rfl

@[simp] theorem itemsAt_keep (blocks : Array Block) (x : Nat) :
    itemsAt (blocks.map (Block.keep k)) x = (itemsAt blocks x).filter k := by
  simp only [itemsAt, Array.getD_eq_getD_getElem?, Array.getElem?_map]
  cases blocks[x]? <;> rfl

@[simp] theorem succAt_keep (blocks : Array Block) (x : Nat) :
    succAt (blocks.map (Block.keep k)) x = succAt blocks x := by
  simp only [succAt, Array.getD_eq_getD_getElem?, Array.getElem?_map]
  cases blocks[x]? <;> rfl

theorem keep_empty : ({} : Builder).keep k = {} := by simp [keep, Block.keep]

theorem map_modify_keep (blocks : Array Block) (x : Nat) (f f' : Block → Block)
    (same : ∀ block, (f block).keep k = f' (block.keep k)) :
    (blocks.modify x f).map (Block.keep k) = (blocks.map (Block.keep k)).modify x f' := by
  refine Array.ext (by simp) fun i _ _ => ?_
  simp only [Array.getElem_map, Array.getElem_modify]
  split
  · exact same _
  · rfl

theorem keep_push (kept : k item = true) : (b.push item).keep k = (b.keep k).push item := by
  simp only [keep, push, Builder.mk.injEq, and_true]
  refine map_modify_keep _ _ _ _ fun block => ?_
  simp [Block.keep, kept]

/-- An item that is not kept leaves no trace. -/
theorem keep_push_of_not (out : k item = false) : (b.push item).keep k = b.keep k := by
  simp only [keep, push, Builder.mk.injEq, and_true]
  rw [map_modify_keep _ _ _ id fun block => by simp [Block.keep, out]]
  exact Array.ext (by simp) fun i _ _ => by simp [Array.getElem_modify]

theorem keep_edge (x y : Nat) : (b.edge x y).keep k = (b.keep k).edge x y := by
  have same : ((b.keep k).blocks.getD x {}).succ = (b.blocks.getD x {}).succ := succAt_keep b.blocks x
  unfold edge
  rw [same]
  cases (b.blocks.getD x {}).succ.contains y with
  | true => rfl
  | false =>
    simp only [Bool.false_eq_true, if_false, keep, Builder.mk.injEq, and_true]
    rw [map_modify_keep _ _ _ (fun block => { block with pred := block.pred ++ [x] }) fun _ => rfl,
      map_modify_keep _ _ _ (fun block => { block with succ := block.succ ++ [y] }) fun _ => rfl]

theorem keep_goTo (x : Nat) : (b.goTo x).keep k = (b.keep k).goTo x := rfl

theorem keep_within (next exit body : Nat) :
    (b.within next exit body).keep k = (b.keep k).within next exit body := rfl

theorem keep_newBlock : b.newBlock.2.keep k = (b.keep k).newBlock.2 := by
  simp [keep, newBlock, Block.keep]

theorem keep_arm (x : Nat) : (b.arm x).keep k = (b.keep k).arm x := by
  simp only [arm, keep_goTo, keep_edge, keep_newBlock, size_keep]

theorem keep_label (name : String) :
    Builder.keep k { b.arm b.current with labels := (name, b.blocks.size) :: (b.arm b.current).labels } =
      { (b.keep k).arm b.current with
        labels := (name, (b.keep k).blocks.size) :: ((b.keep k).arm b.current).labels } := by
  rw [← keep_arm, size_keep]
  rfl

theorem keep_afterJump : b.afterJump.keep k = (b.keep k).afterJump := by
  simp [keep, afterJump, newBlock, goTo, Block.keep]

theorem keep_close (x y : Nat) : (b.close x y).keep k = (b.keep k).close x y := by
  have loops (d : Builder) (l : List (Nat × Nat)) :
      Builder.keep k { d with loops := l } = { d.keep k with loops := l } := rfl
  rw [close, loops, keep_goTo, keep_edge, close, current_keep, loops_keep]

theorem keep_headedLoop {inner inner' : Builder → Builder} (kept : k item = true)
    (same : ∀ b, (inner b).keep k = inner' (b.keep k)) :
    (b.headedLoop item inner).keep k = (b.keep k).headedLoop item inner' := by
  have enter : (b.enterHeaded item).keep k = (b.keep k).enterHeaded item := by
    simp only [enterHeaded, keep_within, keep_edge, keep_newBlock, keep_push kept, keep_arm, size_keep,
      current_keep]
  rw [headedLoop_eq, headedLoop_eq, keep_close, same, enter, size_keep]

theorem keep_testedLoop {inner inner' : Builder → Builder} (kept : k item = true)
    (same : ∀ b, (inner b).keep k = inner' (b.keep k)) :
    (b.testedLoop item inner).keep k = (b.keep k).testedLoop item inner' := by
  have enter : b.enterTested.keep k = (b.keep k).enterTested := by
    simp only [enterTested, keep_within, keep_newBlock, keep_arm, size_keep, current_keep]
  have fork (c : Builder) (x y : Nat) : (c.fork x y).keep k = (c.keep k).fork x y := by
    simp only [Builder.fork, keep_goTo, keep_edge, current_keep]
  rw [testedLoop_eq, testedLoop_eq, fork, keep_push kept, keep_close, same, enter, size_keep]

theorem keep_choice {thenInner thenInner' : Builder → Builder}
    {elseInner elseInner' : Option (Builder → Builder)} (kept : k item = true)
    (same : ∀ b, (thenInner b).keep k = thenInner' (b.keep k))
    (sameElse : Option.Rel (fun inner inner' => ∀ b : Builder, (inner b).keep k = inner' (b.keep k))
      elseInner elseInner') :
    (b.choice item thenInner elseInner).keep k = (b.keep k).choice item thenInner' elseInner' := by
  have join (c : Builder) (x y : Nat) : (c.join x y).keep k = (c.keep k).join x y := by
    simp only [Builder.join, keep_goTo, keep_edge, keep_newBlock, size_keep]
  have current (inner inner' : Builder → Builder) (same : ∀ b, (inner b).keep k = inner' (b.keep k))
      (c : Builder) : (inner c).current = (inner' (c.keep k)).current := by rw [← same]; rfl
  cases sameElse with
  | none =>
    rw [choice_none_eq, choice_none_eq]
    simp only [join, same, keep_arm, keep_push kept, current _ _ same, current_keep]
  | some sameElse =>
    rw [choice_some_eq, choice_some_eq]
    simp only [join, same, sameElse, keep_arm, keep_push kept, current _ _ same, current _ _ sameElse,
      current_keep]

theorem resolveGotos_keep (function : String) :
    (b.keep k).resolveGotos function = (b.resolveGotos function).map (Builder.keep k) := by
  unfold resolveGotos
  rw [gotos_keep]
  generalize b.gotos = jumps
  induction jumps generalizing b with
  | nil => rfl
  | cons j rest ih =>
    obtain ⟨source, name⟩ := j
    rw [List.foldlM_cons, List.foldlM_cons]
    dsimp only [labels_keep]
    cases b.labels.lookup name with
    | none => rfl
    | some target =>
      dsimp only [bind, Except.bind]
      rw [← keep_edge]
      exact ih

end Builder

end MiddleEnd.Flow
