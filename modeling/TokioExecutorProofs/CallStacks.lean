import TokioExecutorProofs.ProcessFamilies
import TokioExecutorProofs.TransitionSystems

/-!
Threads that carry out the activities of a transition system. An activity that
runs a callback may be interrupted by a call of another one on the same thread,
which has to end before the first one goes on. Only the innermost activity of a
thread takes steps.
-/

namespace TokioExecutorProofs.CallStacks

open ProcessFamilies
open TransitionSystems

/-- Which activity takes a step, and where an activity stands. -/
structure Activities (State Action Actor Position : Type*) where
  actor : State → Action → Actor
  /-- The step is the first one of its activity on a thread. -/
  begins : State → Action → Bool
  position : State → Actor → Option Position
  /-- A callback that may call anything runs at the position. -/
  runsUserCode : Position → Bool
  /-- The activity leaves its thread. -/
  isOver : Position → Bool

structure ThreadedState (State Actor : Type*) where
  state : State
  /-- The unfinished activities of each thread, the innermost first. -/
  threads : List (List Actor) := []

inductive ThreadAction (Action : Type*) where
  | newThread
  | call (i : Nat) (a : Action)
  | run (i : Nat) (a : Action)
  | back (i : Nat)

variable {State Action Actor Position : Type*}

namespace Activities

variable (sys : TransitionSystem State Action) (acts : Activities State Action Actor Position)

/-- A callback runs in the activity. -/
def inUserCode (s : State) (o : Actor) : Bool := (acts.position s o).any acts.runsUserCode

/-- A thread can begin an activity when it has none, or inside a callback. -/
def mayCall (s : State) : List Actor → Bool
  | [] => true
  | o :: _ => acts.inUserCode s o

variable [DecidableEq Actor]

def step : ThreadAction Action → ThreadedState State Actor → Option (ThreadedState State Actor)
  | .newThread, x => some { x with threads := x.threads ++ [[]] }
  | .call i a, x =>
      match x.threads[i]? with
      | none => none
      | some stack =>
          if acts.begins x.state a ∧ acts.mayCall x.state stack ∧
              ∀ stack' ∈ x.threads, acts.actor x.state a ∉ stack' then
            (sys.step a x.state).map fun s' =>
              { state := s', threads := x.threads.set i (acts.actor x.state a :: stack) }
          else none
  | .run i a, x =>
      match x.threads[i]? with
      | some (o :: _) =>
          if acts.begins x.state a = false ∧ acts.actor x.state a = o then
            (sys.step a x.state).map fun s' => { x with state := s' }
          else none
      | _ => none
  | .back i, x =>
      match x.threads[i]? with
      | some (o :: stack) =>
          if (acts.position x.state o).all acts.isOver then
            some { x with threads := x.threads.set i stack }
          else none
      | _ => none

/-- The system with its activities distributed over any number of threads. -/
def threaded : TransitionSystem (ThreadedState State Actor) (ThreadAction Action) where
  start := { state := sys.start }
  step := acts.step sys

end Activities

/-- An assumption on the steps of the activities. -/
def onSteps (allowed : State → Action → Prop) :
    ThreadedState State Actor → ThreadAction Action → Prop
  | x, .call _ a | x, .run _ a => allowed x.state a
  | _, .newThread | _, .back _ => True

instance (allowed : State → Action → Prop) [∀ s a, Decidable (allowed s a)]
    (x : ThreadedState State Actor) (a : ThreadAction Action) : Decidable (onSteps allowed x a) :=
  match a with
  | .call _ a | .run _ a => inferInstanceAs (Decidable (allowed x.state a))
  | .newThread | .back _ => inferInstanceAs (Decidable True)

variable {sys : TransitionSystem State Action} {acts : Activities State Action Actor Position}
  {allowed : State → Action → Prop} {x x' : ThreadedState State Actor}

theorem onSteps_of_reachable
    {sys : TransitionSystem (ThreadedState State Actor) (ThreadAction Action)}
    (h : sys.Reachable x) : sys.ReachableUnder (onSteps fun _ _ => True) x :=
  RunUnder.mono (fun _ a _ => by cases a <;> trivial) h

/-- An activity stands still while the others take steps. -/
def Framed (sys : TransitionSystem State Action)
    (acts : Activities State Action Actor Position) : Prop :=
  ∀ s a s', sys.Reachable s → sys.step a s = some s' → ∀ o, o ≠ acts.actor s a →
    acts.position s' o = acts.position s o

/-- An activity belongs to one thread, and only the innermost one of a thread is
not in a callback. -/
structure Nested (acts : Activities State Action Actor Position)
    (x : ThreadedState State Actor) : Prop where
  below : ∀ (i : Nat) (o : Actor) (stack : List Actor), x.threads[i]? = some (o :: stack) →
    ∀ o' ∈ stack, acts.inUserCode x.state o' = true
  nodup : ∀ (i : Nat) (stack : List Actor), x.threads[i]? = some stack → stack.Nodup
  apart : ∀ (i j : Nat) (stack stack' : List Actor), x.threads[i]? = some stack →
    x.threads[j]? = some stack' → ∀ o ∈ stack, o ∈ stack' → i = j

section

variable {s' : State} {i : Nat} {stack : List Actor}

theorem inUserCode_of_position {s : State} {o : Actor}
    (h : acts.position s' o = acts.position s o) : acts.inUserCode s' o = acts.inUserCode s o := by
  rw [Activities.inUserCode, h, Activities.inUserCode]

theorem Nested.newThread (h : Nested acts x) :
    Nested acts { x with threads := x.threads ++ [[]] } where
  below i o stack hi := by
    rcases getElem?_append_cases hi with hi | ⟨_, hnil⟩
    · exact h.below i o stack hi
    · cases hnil
  nodup i stack hi := by
    rcases getElem?_append_cases hi with hi | ⟨_, rfl⟩
    · exact h.nodup i stack hi
    · exact List.nodup_nil
  apart i j stack stack' hi hj o ho ho' := by
    rcases getElem?_append_cases hi with hi | ⟨_, rfl⟩
    · rcases getElem?_append_cases hj with hj | ⟨_, rfl⟩
      · exact h.apart i j stack stack' hi hj o ho ho'
      · cases ho'
    · cases ho

theorem Nested.call {o : Actor} (h : Nested acts x) (hi : x.threads[i]? = some stack)
    (hcall : acts.mayCall x.state stack = true) (hfresh : ∀ stack' ∈ x.threads, o ∉ stack')
    (hframe : ∀ o' : Actor, o' ≠ o → acts.position s' o' = acts.position x.state o') :
    Nested acts { state := s', threads := x.threads.set i (o :: stack) } := by
  have hmem : ∀ {j : Nat} {stack' : List Actor}, x.threads[j]? = some stack' → o ∉ stack' :=
    fun hj => hfresh _ (mem_of_getElem? hj)
  have huser : ∀ {o' : Actor}, o' ≠ o → acts.inUserCode x.state o' = true →
      acts.inUserCode s' o' = true := by
    intro o' hne
    rw [inUserCode_of_position (hframe o' hne)]
    exact id
  refine ⟨fun j o₁ stack₁ hj o' ho' => ?_, fun j stack₁ hj => ?_,
    fun j k stack₁ stack₂ hj hk o' ho₁ ho₂ => ?_⟩
  · rcases getElem?_set_cases hj with ⟨rfl, hcons⟩ | ⟨_, hold⟩
    · obtain ⟨rfl, rfl⟩ := List.cons_eq_cons.mp hcons
      have hne : o' ≠ o₁ := by
        rintro rfl
        exact hmem hi ho'
      -- The activity that was innermost before the call is in a callback.
      cases stack₁ with
      | nil => cases ho'
      | cons o₂ stack₂ =>
          rcases List.mem_cons.mp ho' with rfl | ho'
          · exact huser hne hcall
          · exact huser hne (h.below _ _ _ hi o' ho')
    · have hne : o' ≠ o := by
        rintro rfl
        exact hmem hold (List.mem_cons_of_mem _ ho')
      exact huser hne (h.below j o₁ stack₁ hold o' ho')
  · rcases getElem?_set_cases hj with ⟨rfl, rfl⟩ | ⟨_, hj⟩
    · exact List.nodup_cons.mpr ⟨hmem hi, h.nodup _ _ hi⟩
    · exact h.nodup j stack₁ hj
  · have hold : ∀ {j : Nat} {stack' : List Actor},
        (x.threads.set i (o :: stack))[j]? = some stack' →
        o' ≠ o → o' ∈ stack' → ∃ stack₀, x.threads[j]? = some stack₀ ∧ o' ∈ stack₀ := by
      intro j stack' hj hne ho
      rcases getElem?_set_cases hj with ⟨rfl, rfl⟩ | ⟨_, hj⟩
      · exact ⟨stack, hi, (List.mem_cons.mp ho).resolve_left hne⟩
      · exact ⟨stack', hj, ho⟩
    by_cases hne : o' = o
    · subst o'
      rcases getElem?_set_cases hj with ⟨rfl, _⟩ | ⟨_, hj⟩
      · rcases getElem?_set_cases hk with ⟨rfl, _⟩ | ⟨_, hk⟩
        · rfl
        · exact absurd ho₂ (hmem hk)
      · exact absurd ho₁ (hmem hj)
    · obtain ⟨stack₁', hj', ho₁'⟩ := hold hj hne ho₁
      obtain ⟨stack₂', hk', ho₂'⟩ := hold hk hne ho₂
      exact h.apart j k stack₁' stack₂' hj' hk' o' ho₁' ho₂'

theorem Nested.ne_of_below {o o₁ o' : Actor} {j : Nat} {stack₁ : List Actor} (h : Nested acts x)
    (hi : x.threads[i]? = some (o :: stack)) (hj : x.threads[j]? = some (o₁ :: stack₁))
    (ho' : o' ∈ stack₁) : o' ≠ o := by
  rintro rfl
  obtain rfl := h.apart i j _ _ hi hj o' List.mem_cons_self (List.mem_cons_of_mem _ ho')
  obtain ⟨rfl, rfl⟩ := List.cons_eq_cons.mp (Option.some.inj (hi.symm.trans hj))
  exact (List.nodup_cons.mp (h.nodup i _ hi)).1 ho'

theorem Nested.run {o : Actor} (h : Nested acts x) (hi : x.threads[i]? = some (o :: stack))
    (hframe : ∀ o' : Actor, o' ≠ o → acts.position s' o' = acts.position x.state o') :
    Nested acts { x with state := s' } where
  below j o₁ stack₁ hj o' ho' := by
    rw [inUserCode_of_position (hframe o' (h.ne_of_below hi hj ho'))]
    exact h.below j o₁ stack₁ hj o' ho'
  nodup := h.nodup
  apart := h.apart

theorem Nested.back {o : Actor} (h : Nested acts x) (hi : x.threads[i]? = some (o :: stack)) :
    Nested acts { x with threads := x.threads.set i stack } := by
  have hold : ∀ {j : Nat} {stack' : List Actor}, (x.threads.set i stack)[j]? = some stack' →
      ∃ stack₀, x.threads[j]? = some stack₀ ∧ stack' <:+ stack₀ := by
    intro j stack' hj
    rcases getElem?_set_cases hj with ⟨rfl, rfl⟩ | ⟨_, hj⟩
    · exact ⟨_, hi, List.suffix_cons _ _⟩
    · exact ⟨stack', hj, List.suffix_rfl⟩
  refine ⟨fun j o₁ stack₁ hj o' ho' => ?_, fun j stack₁ hj => ?_,
    fun j k stack₁ stack₂ hj hk o' ho₁ ho₂ => ?_⟩
  · rcases getElem?_set_cases hj with ⟨rfl, rfl⟩ | ⟨_, hj⟩
    · exact h.below _ o _ hi o' (List.mem_cons_of_mem _ ho')
    · exact h.below j o₁ stack₁ hj o' ho'
  · obtain ⟨stack₀, hj, hsuffix⟩ := hold hj
    exact (h.nodup j stack₀ hj).sublist hsuffix.sublist
  · obtain ⟨stack₁', hj, hsuffix₁⟩ := hold hj
    obtain ⟨stack₂', hk, hsuffix₂⟩ := hold hk
    exact h.apart j k stack₁' stack₂' hj hk o' (hsuffix₁.subset ho₁) (hsuffix₂.subset ho₂)

end

/-- A fact about callbacks is a fact about all activities of a thread whose
innermost one runs a callback. -/
theorem Nested.forall_of_inUserCode {P : Actor → Prop} {i : Nat} {o : Actor}
    {stack : List Actor} (h : Nested acts x) (hi : x.threads[i]? = some (o :: stack))
    (htop : acts.inUserCode x.state o = true)
    (hP : ∀ o, acts.inUserCode x.state o = true → P o) : ∀ o' ∈ o :: stack, P o' := by
  intro o' ho'
  rcases List.mem_cons.mp ho' with rfl | ho'
  · exact hP o' htop
  · exact hP o' (h.below i o stack hi o' ho')

section

variable [DecidableEq Actor]

/-- Everything that a step of the threads can do. -/
inductive Effect (sys : TransitionSystem State Action)
    (acts : Activities State Action Actor Position) (x : ThreadedState State Actor) :
    ThreadAction Action → ThreadedState State Actor → Prop
  | newThread : Effect sys acts x .newThread { x with threads := x.threads ++ [[]] }
  | call {i a stack s'} (hi : x.threads[i]? = some stack)
      (hcall : acts.mayCall x.state stack = true)
      (hfresh : ∀ stack' ∈ x.threads, acts.actor x.state a ∉ stack')
      (hstep : sys.step a x.state = some s') (hbegins : acts.begins x.state a = true) :
      Effect sys acts x (.call i a)
        { state := s', threads := x.threads.set i (acts.actor x.state a :: stack) }
  | run {i a stack s'} (hi : x.threads[i]? = some (acts.actor x.state a :: stack))
      (hstep : sys.step a x.state = some s') : Effect sys acts x (.run i a) { x with state := s' }
  | back {i o stack} (hi : x.threads[i]? = some (o :: stack))
      (hover : (acts.position x.state o).all acts.isOver = true) :
      Effect sys acts x (.back i) { x with threads := x.threads.set i stack }

theorem effect_of_step {a : ThreadAction Action} (h : acts.step sys a x = some x') :
    Effect sys acts x a x' := by
  cases a with
  | newThread =>
      obtain rfl := Option.some.inj h
      exact .newThread
  | call i a =>
      simp only [Activities.step] at h
      split at h
      · cases h
      · rename_i stack hi
        split at h
        · rename_i hguard
          obtain ⟨s', hstep, rfl⟩ := Option.map_eq_some_iff.mp h
          exact .call hi hguard.2.1 hguard.2.2 hstep hguard.1
        · cases h
  | run i a =>
      simp only [Activities.step] at h
      split at h
      · rename_i o stack hi
        split at h
        · rename_i hguard
          obtain ⟨s', hstep, rfl⟩ := Option.map_eq_some_iff.mp h
          obtain ⟨_, rfl⟩ := hguard
          exact .run hi hstep
        · cases h
      · cases h
  | back i =>
      simp only [Activities.step] at h
      split at h
      · rename_i o stack hi
        split at h
        · rename_i hover
          obtain rfl := Option.some.inj h
          exact .back hi hover
        · cases h
      · cases h

/-- The threads restrict the order of steps and nothing else. -/
theorem run_of_threaded (h : (acts.threaded sys).RunUnder (onSteps allowed) x x') :
    sys.RunUnder allowed x.state x'.state := by
  refine RunUnder.preserves (P := fun x' => sys.RunUnder allowed x.state x'.state) h
    (runUnder_refl x.state) ?_
  intro x₁ a x₂ ih hallowed hnext
  cases effect_of_step hnext with
  | newThread | back => exact ih
  | call _ _ _ hstep | run _ hstep => exact RunUnder.tail ih hallowed hstep

theorem reachable_of_threaded (h : (acts.threaded sys).ReachableUnder (onSteps allowed) x) :
    sys.ReachableUnder allowed x.state :=
  run_of_threaded h

theorem nested_of_reachable (hframed : Framed sys acts)
    (h : (acts.threaded sys).ReachableUnder (onSteps allowed) x) : Nested acts x := by
  refine ReachableUnder.invariant h ⟨?_, ?_, ?_⟩ ?_
  · exact fun i o stack hi => by simp [Activities.threaded] at hi
  · exact fun i stack hi => by simp [Activities.threaded] at hi
  · exact fun i j stack stack' hi => by simp [Activities.threaded] at hi
  intro x a x' hx ih _ hnext
  have hreachable := ReachableUnder.reachable (reachable_of_threaded hx)
  cases effect_of_step hnext with
  | newThread => exact ih.newThread
  | call hi hcall hfresh hstep =>
      exact ih.call hi hcall hfresh (hframed _ _ _ hreachable hstep)
  | run hi hstep => exact ih.run hi (hframed _ _ _ hreachable hstep)
  | back hi => exact ih.back hi

end

end TokioExecutorProofs.CallStacks
