import ChanFlow.Proofs.Turn

/-!
Inner loops and the loops around them.

Blocks are entered in any order, well nested or not, and the current loop is learned about in between. While there are
loops around it, the walk is inside the current loop and inside each of those; and once the walk is back from an inner
loop, the loop it came from and the loops around that are what they were.
-/
namespace ChanFlow.Nest

open Ssa

variable {n n' base : Nest} {move : Loop.Move}

/-- What a walk does to the loops: it enters a block, learns of the current loop or moves its index on. -/
inductive Op
  | enter (block : Nat) (role : Role)
  | noteIndex (var : String) (start step : Int)
  | noteCondition (cond : String) (x : Option String) (op : BinOp) (bound : Option Int) (maxUnroll : Nat)
  | settle
  | advance

def apply (n : Nest) : Op → Nest × Loop.Move
  | .enter block role => n.enter block role
  | .noteIndex var start step => ({ n with current := n.current.noteIndex var start step }, .stay)
  | .noteCondition cond x op bound maxUnroll =>
    ({ n with current := n.current.noteCondition cond x op bound maxUnroll }, .stay)
  | .settle => ({ n with current := n.current.settle }, .stay)
  | .advance => ({ n with current := n.current.advance }, .stay)

def run (n : Nest) (ops : List Op) : Nest := ops.foldl (fun n op => (n.apply op).1) n

/-- The walk is inside the loop. -/
def Inside (l : Loop) : Prop := l.state = .enter ∨ l.state = .body

/-- What an operation can do. The loop that is put away is the current one as it was. -/
inductive Step (n : Nest) : Nest → Loop.Move → Prop
  | stay (l : Loop) (inside : n.outer ≠ [] → Inside n.current → Inside l) : Step n ⟨l, n.outer⟩ .stay
  | push (l : Loop) (inside : Inside n.current) (entered : Inside l) : Step n ⟨l, n.current :: n.outer⟩ .pushed
  | pop {l : Loop} {rest : List Loop} (around : n.outer = l :: rest) : Step n ⟨l, rest⟩ .popped

theorem Step.keep {l : Loop} (same : l.state = n.current.state) : Step n ⟨l, n.outer⟩ .stay :=
  .stay l fun _ inside => by rwa [Inside, same]

theorem step_enter (n : Nest) (block : Nat) (role : Role) :
    Step n (n.enter block role).1 (n.enter block role).2 := by
  unfold enter
  by_cases left : n.current.state = .exit
  · have outside : ∀ {l : Loop}, Step n ⟨l, n.outer⟩ .stay := .stay _ fun _ inside => by
      simp [Inside, left] at inside
    simp only [left, if_true]
    cases role <;> exact outside
  · simp only [left, if_false]
    split
    case h_1 outside => exact .stay _ fun _ inside => by simp [Inside, outside] at inside
    case h_2 outside => exact .stay _ fun _ inside => by simp [Inside, outside] at inside
    case h_3 => exact .stay _ fun _ _ => .inr rfl
    case h_4 =>
      split
      · next alone => exact .stay _ fun around => absurd alone around
      · next around => exact .pop around
    case h_5 =>
      split
      · next alone => exact .stay _ fun around => absurd alone around
      · next around => exact .pop around
    case h_6 inside =>
      split
      · exact .stay _ fun _ _ => .inl rfl
      · exact .push _ (.inr inside) (.inl rfl)
    case h_7 inside =>
      split
      · exact .keep rfl
      · exact .push _ (.inl inside) (.inl rfl)
    case h_8 => exact .keep rfl

theorem step_apply (n : Nest) (op : Op) : Step n (n.apply op).1 (n.apply op).2 := by
  cases op with
  | enter block role => exact step_enter n block role
  | noteIndex => exact .keep (by grind [Loop.noteIndex])
  | noteCondition => exact .keep (by grind [Loop.noteCondition])
  | settle => exact .keep (by grind [Loop.settle])
  | advance => exact .keep (by grind [Loop.advance])

/-- With loops around the current one, the walk is inside all of them. -/
def Entered (n : Nest) : Prop := n.outer ≠ [] → ∀ l ∈ n.loops, Inside l

theorem Entered.step (h : Entered n) (step : Step n n' move) : Entered n' := by
  cases step with
  | stay l inside =>
    intro around
    have := List.forall_mem_cons.1 (h around)
    exact List.forall_mem_cons.2 ⟨inside around this.1, this.2⟩
  | push l inside entered =>
    refine fun _ => List.forall_mem_cons.2 ⟨entered, List.forall_mem_cons.2 ⟨inside, ?_⟩⟩
    intro l' mem
    exact h (List.ne_nil_of_mem mem) l' (List.mem_cons_of_mem _ mem)
  | pop around => exact fun _ l' mem => h (by simp [around]) l' (List.mem_cons_of_mem _ (around ▸ mem))

theorem entered_run (h : Entered n) (ops : List Op) : Entered (n.run ops) := by
  induction ops generalizing n with
  | nil => exact h
  | cons op ops ih => exact ih (h.step (step_apply n op))

theorem Step.puts (step : Step n n' .pushed) : n'.outer = n.loops := by
  cases step with
  | push => rfl

/-- Above the loops of `base`, an operation that stays above them leaves them alone. -/
theorem Step.covers (step : Step n n' move) (covers : base.loops <:+ n.outer)
    (above : base.outer.length < n'.outer.length) : base.loops <:+ n'.outer := by
  cases step with
  | stay l => exact covers
  | push l => exact covers.trans (List.suffix_cons ..)
  | pop around =>
    rw [around, List.suffix_cons_iff] at covers
    rcases covers with same | covers
    · obtain ⟨-, rfl⟩ := List.cons.inj same
      exact absurd above (Nat.lt_irrefl _)
    · exact covers

theorem Step.restores (step : Step n n' .popped) (covers : base.loops <:+ n.outer)
    (back : n'.outer.length = base.outer.length) : n' = base := by
  cases step with
  | pop around =>
    rw [around, List.suffix_cons_iff] at covers
    rcases covers with same | covers
    · obtain ⟨rfl, rfl⟩ := List.cons.inj same
      rfl
    · exact absurd covers.length_le (by simp [loops, back])

/-- As long as the walk stays inside a loop that it entered, the loops around that loop are left alone. -/
theorem covers_run {ops : List Op} (covers : base.loops <:+ n.outer)
    (above : ∀ k ≤ ops.length, base.outer.length < (n.run (ops.take k)).outer.length) :
    base.loops <:+ (n.run ops).outer := by
  induction ops generalizing n with
  | nil => exact covers
  | cons op ops ih =>
    refine ih ((step_apply n op).covers covers (above 1 (by simp))) fun k le => ?_
    exact above (k + 1) (Nat.succ_le_succ le)

/-- Whatever blocks are entered and whatever is learned of the loops, the walk is inside every loop there is as long as
loops are around the current one, and the way back from an inner loop leads to the very loops it was entered from. -/
theorem inner_loop_restores_outer (before : List Op) :
    let n := run {} before
    (n.outer ≠ [] → ∀ l ∈ n.current :: n.outer, l.state = .enter ∨ l.state = .body) ∧
      ∀ push inside pop, (n.apply push).2 = .pushed →
        (∀ k ≤ inside.length, n.outer.length < ((n.apply push).1.run (inside.take k)).outer.length) →
        (((n.apply push).1.run inside).apply pop).2 = .popped →
        (((n.apply push).1.run inside).apply pop).1.outer.length = n.outer.length →
        (((n.apply push).1.run inside).apply pop).1 = n := by
  refine ⟨entered_run (fun around => absurd rfl around) before, ?_⟩
  intro push inside pop pushed above popped back
  have step := step_apply (run {} before) push
  rw [pushed] at step
  have covers := covers_run (step.puts ▸ List.suffix_rfl) above
  have step := step_apply (((run {} before).apply push).1.run inside) pop
  rw [popped] at step
  exact step.restores covers back

/-- An inner loop, itself left and entered again from a loop inside it. -/
theorem inner_loop_restores_body :
    let n := run {} [.enter 1 .loopHeader, .noteIndex "t1" 0 1, .enter 2 .loopBody]
    let inside := [.noteIndex "t2" 5 2, .enter 4 .loopBody, .enter 6 .loopHeader, .advance, .enter 4 .loopDone]
    (n.apply (.enter 3 .loopHeader)).2 = .pushed ∧
      (((n.apply (.enter 3 .loopHeader)).1.run inside).apply (.enter 5 .loopDone)).1 = n :=
  ⟨by decide, (inner_loop_restores_outer _).2 (.enter 3 .loopHeader) _ (.enter 5 .loopDone) (by decide) (by decide)
    (by decide) (by decide)⟩

end ChanFlow.Nest
