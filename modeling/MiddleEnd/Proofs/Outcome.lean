import Mathlib.Tactic.Common
import MiddleEnd.Transform

namespace MiddleEnd

namespace Outcome

variable {ε α β : Type}

theorem bind_eq_ok_iff {x : Except ε α} {f : α → Except ε β} {b : β} :
    (x >>= f) = .ok b ↔ ∃ a, x = .ok a ∧ f a = .ok b := by
  cases x with
  | error e => simp [bind, Except.bind]
  | ok a => simp [bind, Except.bind]

theorem pure_eq_ok_iff {a b : α} : (pure a : Except ε α) = .ok b ↔ b = a := by
  simp [pure, Except.pure, eq_comm]

theorem throw_eq_ok_iff {e : ε} {a : α} : (throw e : Except ε α) = .ok a ↔ False := by
  simp [throw, throwThe, MonadExceptOf.throw]

theorem exists_of_mapM_eq_ok {f : α → Except ε β} {xs : List α} {ys : List β}
    (result : xs.mapM f = .ok ys) {y : β} (member : y ∈ ys) : ∃ x ∈ xs, f x = .ok y := by
  induction xs generalizing ys with
  | nil =>
    rw [List.mapM_nil] at result
    rw [pure_eq_ok_iff.mp result] at member
    cases member
  | cons x xs ih =>
    rw [List.mapM_cons] at result
    obtain ⟨first, ofFirst, result⟩ := bind_eq_ok_iff.mp result
    obtain ⟨others, ofOthers, result⟩ := bind_eq_ok_iff.mp result
    rw [pure_eq_ok_iff.mp result] at member
    rcases List.mem_cons.mp member with rfl | later
    · exact ⟨x, List.mem_cons_self .., ofFirst⟩
    · obtain ⟨x', listed, ofX⟩ := ih ofOthers later
      exact ⟨x', List.mem_cons_of_mem _ listed, ofX⟩

theorem exists_mapM_eq_ok {f : α → Except ε β} {xs : List α} (each : ∀ x ∈ xs, ∃ y, f x = .ok y) :
    ∃ ys, xs.mapM f = .ok ys := by
  induction xs with
  | nil => exact ⟨[], rfl⟩
  | cons x xs ih =>
    obtain ⟨y, first⟩ := each x List.mem_cons_self
    obtain ⟨ys, rest⟩ := ih fun x' later => each x' (List.mem_cons_of_mem _ later)
    rw [List.mapM_cons]
    exact ⟨y :: ys, bind_eq_ok_iff.mpr ⟨y, first, bind_eq_ok_iff.mpr ⟨ys, rest, rfl⟩⟩⟩

theorem run_bind {σ : Type} {m : EStateM ε σ α} {k : α → EStateM ε σ β} {s t : σ} {a : α}
    (result : m s = .ok a t) : (m >>= k) s = k a t := by
  show EStateM.bind m k s = _
  rw [EStateM.bind, result]

theorem run_get_bind {σ : Type} (k : σ → EStateM ε σ α) (s : σ) : (get >>= k) s = k s s := rfl

/-- From the state `s`, a run that succeeds ends with `Q`, and one that fails leaves `E`. -/
def Ends {σ : Type} (m : EStateM ε σ α) (s : σ) (Q : α → σ → Prop) (E : σ → Prop) : Prop :=
  match m s with
  | .ok a t => Q a t
  | .error _ t => E t

namespace Ends

variable {σ : Type} {s : σ} {E : σ → Prop}

theorem of_ok {m : EStateM ε σ α} {Q : α → σ → Prop} (ends : Ends m s Q E) {a : α} {t : σ}
    (result : m s = .ok a t) : Q a t := by
  unfold Ends at ends
  rwa [result] at ends

theorem of_error {m : EStateM ε σ α} {Q : α → σ → Prop} (ends : Ends m s Q E) {e : ε} {t : σ}
    (result : m s = .error e t) : E t := by
  unfold Ends at ends
  rwa [result] at ends

/-- A run that must not fail succeeds. -/
theorem exists_ok {m : EStateM ε σ α} {Q : α → σ → Prop} (ends : Ends m s Q fun _ => False) :
    ∃ a t, m s = .ok a t ∧ Q a t := by
  cases result : m s with
  | ok a t => exact ⟨a, t, rfl, ends.of_ok result⟩
  | error e t => exact (ends.of_error result).elim

theorem mono {m : EStateM ε σ α} {Q R : α → σ → Prop} {F : σ → Prop} (ends : Ends m s Q E)
    (weaker : ∀ a t, Q a t → R a t) (left : ∀ t, E t → F t) : Ends m s R F := by
  unfold Ends at ends ⊢
  cases result : m s with
  | ok a t =>
    rw [result] at ends
    exact weaker a t ends
  | error e t =>
    rw [result] at ends
    exact left t ends

theorem pure {a : α} {Q : α → σ → Prop} (here : Q a s) :
    Ends (Pure.pure a : EStateM ε σ α) s Q E := here

theorem throw {e : ε} {Q : α → σ → Prop} (here : E s) :
    Ends (MonadExcept.throw e : EStateM ε σ α) s Q E := here

theorem get {Q : σ → σ → Prop} (here : Q s s) : Ends (MonadState.get : EStateM ε σ σ) s Q E := here

theorem set {t : σ} {Q : PUnit → σ → Prop} (here : Q ⟨⟩ t) :
    Ends (MonadStateOf.set t : EStateM ε σ PUnit) s Q E := here

theorem modified {f : σ → σ} {Q : PUnit → σ → Prop} (here : Q ⟨⟩ (f s)) :
    Ends (modify f : EStateM ε σ PUnit) s Q E := here

theorem bind {m : EStateM ε σ α} {f : α → EStateM ε σ β} {Q : α → σ → Prop}
    {R : β → σ → Prop} (first : Ends m s Q E) (rest : ∀ a t, Q a t → Ends (f a) t R E) :
    Ends (m >>= f) s R E := by
  unfold Ends at first
  show Ends (EStateM.bind m f) s R E
  unfold Ends EStateM.bind
  cases result : m s with
  | ok a t =>
    rw [result] at first
    exact rest a t first
  | error e t =>
    rw [result] at first
    exact first

theorem get_bind {f : σ → EStateM ε σ β} {R : β → σ → Prop} (rest : Ends (f s) s R E) :
    Ends (MonadState.get >>= f) s R E := rest

/-- What every turn of a loop keeps holds after the loop. -/
theorem forM {f : α → EStateM ε σ PUnit} {I : List α → σ → Prop} {items : List α}
    (start : I items s)
    (turn : ∀ a rest t, I (a :: rest) t → Ends (f a) t (fun _ => I rest) E) :
    Ends (items.forM f) s (fun _ => I []) E := by
  induction items generalizing s with
  | nil => exact start
  | cons a rest ih =>
    show Ends (f a >>= fun _ => rest.forM f) s _ E
    exact bind (turn a rest s start) fun _ t kept => ih kept

theorem foldlM {f : β → α → EStateM ε σ β} {I : List α → β → σ → Prop} {items : List α} {b : β}
    (start : I items b s)
    (turn : ∀ a rest b t, I (a :: rest) b t → Ends (f b a) t (I rest) E) :
    Ends (items.foldlM f b) s (I []) E := by
  induction items generalizing s b with
  | nil => exact start
  | cons a rest ih =>
    rw [List.foldlM_cons]
    exact bind (turn a rest b s start) fun b t kept => ih kept

theorem mapM {f : α → EStateM ε σ β} {I : List α → σ → Prop} {items : List α} (start : I items s)
    (turn : ∀ a rest t, I (a :: rest) t → Ends (f a) t (fun _ => I rest) E) :
    Ends (items.mapM f) s (fun _ => I []) E := by
  induction items generalizing s with
  | nil =>
    rw [List.mapM_nil]
    exact pure start
  | cons a rest ih =>
    rw [List.mapM_cons]
    refine bind (turn a rest s start) fun _ t kept => ?_
    exact bind (ih kept) fun _ _ whole => pure whole

/-- As `mapM`, with the results so far. -/
theorem mapM_results {f : α → EStateM ε σ β} {I : List α → List β → σ → Prop} {items : List α}
    (start : I items [] s)
    (turn : ∀ a rest done t, I (a :: rest) done t →
      Ends (f a) t (fun b => I rest (done ++ [b])) E) : Ends (items.mapM f) s (I []) E := by
  suffices general : ∀ done, I items done s →
      Ends (items.mapM f) s (fun bs => I [] (done ++ bs)) E by simpa using general [] start
  intro done here
  clear start
  induction items generalizing s done with
  | nil =>
    rw [List.mapM_nil]
    exact pure (by simpa using here)
  | cons a rest ih =>
    rw [List.mapM_cons]
    refine bind (turn a rest done s here) fun b t kept => ?_
    exact bind (ih (done ++ [b]) kept) fun bs u whole => pure (by simpa using whole)

end Ends

/-- Whatever comes of the run, what holds of the state before it holds after it. -/
structure Preserves {σ : Type} (I : σ → Prop) (m : EStateM ε σ α) : Prop where
  ends {s : σ} : I s → Ends m s (fun _ => I) I

namespace Preserves

variable {σ : Type} {I : σ → Prop}

theorem pure (a : α) : Preserves I (Pure.pure a : EStateM ε σ α) :=
  ⟨fun here => Ends.pure here⟩

theorem throw (e : ε) : Preserves I (MonadExcept.throw e : EStateM ε σ α) :=
  ⟨Ends.throw⟩

theorem get : Preserves I (MonadState.get : EStateM ε σ σ) := ⟨fun here => Ends.get here⟩

theorem modified {f : σ → σ} (kept : ∀ s, I s → I (f s)) :
    Preserves I (modify f : EStateM ε σ PUnit) := ⟨fun here => Ends.modified (kept _ here)⟩

theorem bind {m : EStateM ε σ α} {f : α → EStateM ε σ β} (first : Preserves I m)
    (rest : ∀ a, Preserves I (f a)) : Preserves I (m >>= f) :=
  ⟨fun here => (first.ends here).bind fun a _ kept => (rest a).ends kept⟩

theorem forM {f : α → EStateM ε σ PUnit} (turn : ∀ a, Preserves I (f a)) (items : List α) :
    Preserves I (items.forM f) :=
  ⟨fun here => Ends.forM (I := fun _ => I) here fun a _ _ kept => (turn a).ends kept⟩

theorem foldlM {f : β → α → EStateM ε σ β} (turn : ∀ b a, Preserves I (f b a)) (items : List α) (b : β) :
    Preserves I (items.foldlM f b) :=
  ⟨fun here => Ends.foldlM (I := fun _ _ => I) here fun a _ b _ kept => (turn b a).ends kept⟩

theorem mapM {f : α → EStateM ε σ β} (turn : ∀ a, Preserves I (f a)) (items : List α) :
    Preserves I (items.mapM f) :=
  ⟨fun here => Ends.mapM (I := fun _ => I) here fun a _ _ kept => (turn a).ends kept⟩

end Preserves

/-- The run throws no other errors than these. -/
structure Throws {σ : Type} (T : ε → Prop) (m : EStateM ε σ α) : Prop where
  error {s : σ} {e : ε} {t : σ} : m s = .error e t → T e

namespace Throws

variable {σ : Type} {T : ε → Prop}

theorem pure (a : α) : Throws T (Pure.pure a : EStateM ε σ α) := ⟨nofun⟩

theorem throw {e : ε} (thrown : T e) : Throws T (MonadExcept.throw e : EStateM ε σ α) :=
  ⟨fun fails => by cases fails; exact thrown⟩

theorem get : Throws T (MonadState.get : EStateM ε σ σ) := ⟨nofun⟩

theorem modified (f : σ → σ) : Throws T (modify f : EStateM ε σ PUnit) := ⟨nofun⟩

theorem bind {m : EStateM ε σ α} {f : α → EStateM ε σ β} (first : Throws T m)
    (rest : ∀ a, Throws T (f a)) : Throws T (m >>= f) := by
  refine ⟨fun {s e t} fails => ?_⟩
  change EStateM.bind m f s = .error e t at fails
  unfold EStateM.bind at fails
  cases result : m s with
  | ok a s' =>
    rw [result] at fails
    exact (rest a).error fails
  | error e' s' =>
    rw [result] at fails
    cases fails
    exact first.error result

theorem forM {f : α → EStateM ε σ PUnit} (turn : ∀ a, Throws T (f a)) (items : List α) :
    Throws T (items.forM f) := by
  induction items with
  | nil => exact pure PUnit.unit
  | cons a rest ih => exact bind (turn a) fun _ => ih

theorem mapM {f : α → EStateM ε σ β} (turn : ∀ a, Throws T (f a)) (items : List α) :
    Throws T (items.mapM f) := by
  induction items with
  | nil =>
    rw [List.mapM_nil]
    exact pure []
  | cons a rest ih =>
    rw [List.mapM_cons]
    exact bind (turn a) fun _ => bind ih fun _ => pure _

end Throws

end Outcome

namespace TransformM

open Outcome

variable {α : Type} {p : Program} {E : Program → Prop}

theorem ends_build {f : Program → α × Program} {Q : α → Program → Prop}
    (done : Q (f p).1 (f p).2) : Ends (build f) p Q E := done

theorem ends_build_bind {β : Type} {f : Program → α × Program} {g : α → TransformM β}
    {Q : β → Program → Prop} (rest : Ends (g (f p).1) (f p).2 Q E) :
    Ends (build f >>= g) p Q E := rest

/-- A refused edit leaves the program as it was. -/
theorem ends_edit {f : Program → Except EditError Program} {Q : Unit → Program → Prop}
    (done : ∀ q, f p = .ok q → Q () q) (refused : E p) : Ends (edit f) p Q E := by
  unfold edit
  refine Ends.get_bind ?_
  cases result : f p with
  | ok q => exact Ends.set (done q result)
  | error e => exact Ends.throw refused

theorem ends_edit_of_ok {f : Program → Except EditError Program} {Q : Unit → Program → Prop}
    {q : Program} (result : f p = .ok q) (done : Q () q) : Ends (edit f) p Q E := by
  unfold edit
  refine Ends.get_bind ?_
  rw [result]
  exact Ends.set done

theorem ends_edit_of_exists {f : Program → Except EditError Program} {Q : Unit → Program → Prop}
    (accepted : ∃ q, f p = .ok q) (done : ∀ q, f p = .ok q → Q () q) : Ends (edit f) p Q E := by
  obtain ⟨q, result⟩ := accepted
  exact ends_edit_of_ok result (done q result)

theorem preserves_build {I : Program → Prop} {f : Program → α × Program}
    (kept : ∀ p, I p → I (f p).2) : Preserves I (build f) := ⟨fun here => ends_build (kept _ here)⟩

theorem preserves_edit {I : Program → Prop} {f : Program → Except EditError Program}
    (kept : ∀ {p q}, I p → f p = .ok q → I q) : Preserves I (edit f) :=
  ⟨fun here => ends_edit (fun _ result => kept here result) here⟩

end TransformM

end MiddleEnd
