import TokioExecutorProofs.CallStacks
import TokioExecutorProofs.RestingSystems

/-!
Threads that come to rest. An activity below another one on its thread goes on
only after the other one has ended. Where no thread can go on, only the innermost
activities are to blame, so it matters what they wait for and what the activities
below them hold.
-/

namespace TokioExecutorProofs.RestingThreads

open CallStacks
open ProcessFamilies
open RestingSystems
open TransitionSystems

variable {State Action Actor Position : Type*}

/-- Some thread has nothing to do. -/
def hasIdle (threads : List (List Actor)) : Bool := threads.any List.isEmpty

/-- A thread is started where all the others are busy. -/
def onThreads (allowed : State → Action → Prop) (x : ThreadedState State Actor) :
    ThreadAction Action → Prop
  | .newThread => hasIdle x.threads = false
  | .call _ a | .run _ a => allowed x.state a
  | .back _ => True

/-- Besides, no callback calls anything. -/
def byThreads (driven : State → Action → Prop) (x : ThreadedState State Actor) :
    ThreadAction Action → Prop
  | .newThread => hasIdle x.threads = false
  | .call i a => x.threads[i]? = some [] ∧ driven x.state a
  | .run _ a => driven x.state a
  | .back _ => True

theorem onThreads_of_byThreads {allowed driven : State → Action → Prop}
    (hle : ∀ s a, driven s a → allowed s a) (x : ThreadedState State Actor)
    (a : ThreadAction Action) (h : byThreads driven x a) : onThreads allowed x a := by
  cases a with
  | newThread => exact h
  | call i a => exact hle x.state a h.2
  | run i a => exact hle x.state a h
  | back i => trivial

theorem exists_getElem?_of_hasIdle {threads : List (List Actor)} (h : hasIdle threads = true) :
    ∃ i : Nat, threads[i]? = some [] := by
  obtain ⟨stack, hmem, hempty⟩ := List.any_eq_true.mp h
  obtain rfl := List.isEmpty_iff.mp hempty
  exact List.mem_iff_getElem?.mp hmem

/-! ### Ranks -/

section

variable {rank : State → Nat}

/-- A step of an activity pays for the calls and returns that it leads to, and for
one thread to begin the next activity on. -/
def threadRank (rank : State → Nat) (x : ThreadedState State Actor) : Nat :=
  4 * rank x.state + 2 * total List.length x.threads + if hasIdle x.threads then 0 else 1

theorem idle_le_one (threads : List (List Actor)) :
    (if hasIdle threads then 0 else 1) ≤ 1 := by
  split <;> omega

/-- A call makes room on its thread for one more return. -/
theorem threadRank_call {x : ThreadedState State Actor} {i : Nat} {o : Actor}
    {stack : List Actor} {s' : State} (hi : x.threads[i]? = some stack) :
    threadRank rank { state := s', threads := x.threads.set i (o :: stack) } +
      4 * rank x.state ≤ threadRank rank x + 4 * rank s' + 3 := by
  have hadd : total List.length (x.threads.set i (o :: stack)) + stack.length =
      total List.length x.threads + (stack.length + 1) := total_set_add hi
  have hone := idle_le_one (x.threads.set i (o :: stack))
  simp only [threadRank]
  omega

theorem threadRank_call_le {x : ThreadedState State Actor} {i cost : Nat} {o : Actor}
    {stack : List Actor} {s' : State} (hi : x.threads[i]? = some stack)
    (hrank : rank s' ≤ rank x.state + cost) :
    threadRank rank { state := s', threads := x.threads.set i (o :: stack) } ≤
      threadRank rank x + (4 * cost + 3) := by
  have hcall : threadRank rank { state := s', threads := x.threads.set i (o :: stack) } +
      4 * rank x.state ≤ threadRank rank x + 4 * rank s' + 3 := threadRank_call hi
  omega

variable [DecidableEq Actor] {sys : TransitionSystem State Action}
  {acts : Activities State Action Actor Position} {allowed : State → Action → Prop}

theorem Lowers.threaded (h : Lowers sys allowed rank) :
    Lowers (acts.threaded sys) (onThreads allowed) (threadRank rank) := by
  intro x b x' hx hb hnext
  have hs := reachable_of_threaded (onSteps_of_reachable hx)
  cases effect_of_step hnext with
  | newThread =>
      have hidle : hasIdle (x.threads ++ [[]]) = true := by simp [hasIdle]
      have hsame : total List.length (x.threads ++ [[]]) = total List.length x.threads :=
        total_append_singleton
      have hbusy : hasIdle x.threads = false := hb
      simp only [threadRank, hidle, hsame, hbusy]
      simp
  | @call i a stack s' hi _ _ hstep _ =>
      have hlt := h _ _ _ hs hb hstep
      have hcall : threadRank rank
          { state := s', threads := x.threads.set i (acts.actor x.state a :: stack) } +
            4 * rank x.state ≤ threadRank rank x + 4 * rank s' + 3 := threadRank_call hi
      omega
  | run _ hstep =>
      have hlt := h _ _ _ hs hb hstep
      simp only [threadRank]
      omega
  | @back i o stack hi _ =>
      have hadd : total List.length (x.threads.set i stack) + (stack.length + 1) =
          total List.length x.threads + stack.length := total_set_add hi
      have hone := idle_le_one (x.threads.set i stack)
      simp only [threadRank]
      omega

end

/-! ### What is on the threads -/

section

variable {acts : Activities State Action Actor Position} {x x' : ThreadedState State Actor}

/-- An activity that is not over is on a thread. -/
def Carried (acts : Activities State Action Actor Position) (x : ThreadedState State Actor) :
    Prop :=
  ∀ o p, acts.position x.state o = some p → acts.isOver p = false → ∃ stack ∈ x.threads, o ∈ stack

/-- An activity begins where it is over, or is not there yet, and goes on where it
is not over. -/
def Standing (sys : TransitionSystem State Action)
    (acts : Activities State Action Actor Position) : Prop :=
  ∀ s a s', sys.Reachable s → sys.step a s = some s' →
    (acts.position s (acts.actor s a)).all acts.isOver = acts.begins s a

/-- Every activity is the only one of its thread. -/
def Alone (x : ThreadedState State Actor) : Prop :=
  ∀ (i : Nat) (o : Actor) (stack : List Actor), x.threads[i]? = some (o :: stack) → stack = []

theorem Alone.getElem? {o : Actor} {stack : List Actor} (h : Alone x) (hmem : stack ∈ x.threads)
    (ho : o ∈ stack) :
    ∃ i : Nat, x.threads[i]? = some [o] := by
  obtain ⟨i, hi⟩ := List.mem_iff_getElem?.mp hmem
  cases stack with
  | nil => cases ho
  | cons o₁ stack =>
      obtain rfl := h i o₁ stack hi
      rw [List.mem_singleton.mp ho]
      exact ⟨i, hi⟩

theorem mem_set_of_mem {threads : List (List Actor)} {i : Nat} {stack stack' : List Actor}
    {o : Actor} (hi : threads[i]? = some stack) (hkeep : o ∈ stack → o ∈ stack')
    (h : ∃ stack ∈ threads, o ∈ stack) : ∃ stack ∈ threads.set i stack', o ∈ stack :=
  exists_mem_set_of_ne hi h hkeep

variable [DecidableEq Actor] {sys : TransitionSystem State Action}
  {allowed : ThreadedState State Actor → ThreadAction Action → Prop}

theorem state_of_threaded (h : (acts.threaded sys).Reachable x) : sys.Reachable x.state :=
  reachable_of_threaded (onSteps_of_reachable h)

theorem nested_of_threaded (hframed : Framed sys acts) (h : (acts.threaded sys).Reachable x) :
    Nested acts x :=
  nested_of_reachable hframed (onSteps_of_reachable h)

theorem carried_of_reachable (hframed : Framed sys acts)
    (hstart : ∀ o p, acts.position sys.start o = some p → acts.isOver p = true)
    (h : (acts.threaded sys).Reachable x) : Carried acts x := by
  refine Reachable.invariant (P := Carried acts) h ?_ ?_
  · intro o p hp hover
    rw [hstart o p hp] at hover
    cases hover
  intro x b x' hx ih hnext o p hp hover
  have hs := state_of_threaded hx
  cases effect_of_step hnext with
  | newThread =>
      obtain ⟨stack, hstack, ho⟩ := ih o p hp hover
      exact ⟨stack, List.mem_append_left _ hstack, ho⟩
  | @call i a stack s' hi _ _ hstep _ =>
      by_cases hactor : o = acts.actor x.state a
      · exact ⟨_, mem_set_of_getElem? hi, by rw [hactor]; exact List.mem_cons_self⟩
      · have hsame := hframed _ _ _ hs hstep o hactor
        exact mem_set_of_mem hi (List.mem_cons_of_mem _) (ih o p (hsame.symm.trans hp) hover)
  | @run i a stack s' hi hstep =>
      by_cases hactor : o = acts.actor x.state a
      · exact ⟨_, mem_of_getElem? hi, by rw [hactor]; exact List.mem_cons_self⟩
      · have hsame := hframed _ _ _ hs hstep o hactor
        exact ih o p (hsame.symm.trans hp) hover
  | @back i o₁ stack hi hended =>
      refine mem_set_of_mem hi (fun ho => ?_) (ih o p hp hover)
      rcases List.mem_cons.mp ho with rfl | ho
      · -- The activity that leaves the thread is over.
        have hp : acts.position x.state o = some p := hp
        rw [hp, Option.all_some, hover] at hended
        cases hended
      · exact ho

variable (acts) in
/-- What holds where a callback calls something holds of the activities below
another one. -/
theorem below_of_reachable {P : Position → Bool} (hframed : Framed sys acts)
    (hcalls : ∀ x i a o stack, allowed x (.call i a) → x.threads[i]? = some (o :: stack) →
      acts.inUserCode x.state o = true → (acts.position x.state o).any P = true)
    (h : (acts.threaded sys).ReachableUnder allowed x) {i : Nat} {o : Actor}
    {stack : List Actor} : x.threads[i]? = some (o :: stack) →
      ∀ o' ∈ stack, (acts.position x.state o').any P = true := by
  refine ReachableUnder.invariant
    (P := fun x => ∀ (i : Nat) (o : Actor) (stack : List Actor),
      x.threads[i]? = some (o :: stack) → ∀ o' ∈ stack, (acts.position x.state o').any P = true)
    h (fun i o stack hi => by simp [Activities.threaded] at hi) ?_ i o stack
  intro x b x' hx ih hallowed hnext j o₁ stack₁ hj o' ho'
  have hx := ReachableUnder.reachable hx
  have hs := state_of_threaded hx
  cases effect_of_step hnext with
  | newThread =>
      rcases getElem?_append_cases hj with hj | ⟨_, hnil⟩
      · exact ih j o₁ stack₁ hj o' ho'
      · cases hnil
  | @call i a stack s' hi hcall hfresh hstep _ =>
      have hold : ∃ stack₀ ∈ x.threads, o' ∈ stack₀ ∧ (acts.position x.state o').any P = true := by
        rcases getElem?_set_cases hj with ⟨rfl, hcons⟩ | ⟨_, hj⟩
        · obtain ⟨_, rfl⟩ := List.cons_eq_cons.mp hcons
          refine ⟨_, mem_of_getElem? hi, ho', ?_⟩
          cases stack₁ with
          | nil => cases ho'
          | cons o₂ stack₂ =>
              rcases List.mem_cons.mp ho' with rfl | ho'
              · exact hcalls x j a o' stack₂ hallowed hi hcall
              · exact ih j o₂ stack₂ hi o' ho'
        · exact ⟨_, mem_of_getElem? hj, List.mem_cons_of_mem _ ho', ih j o₁ stack₁ hj o' ho'⟩
      obtain ⟨stack₀, hmem, ho₀, hP⟩ := hold
      have hne : o' ≠ acts.actor x.state a := by
        rintro rfl
        exact hfresh stack₀ hmem ho₀
      rw [hframed _ _ _ hs hstep o' hne]
      exact hP
  | run hi hstep =>
      have hne := (nested_of_threaded hframed hx).ne_of_below hi hj ho'
      rw [hframed _ _ _ hs hstep o' hne]
      exact ih j o₁ stack₁ hj o' ho'
  | @back i o₂ stack hi _ =>
      rcases getElem?_set_cases hj with ⟨rfl, rfl⟩ | ⟨_, hj⟩
      · exact ih j o₂ _ hi o' (List.mem_cons_of_mem _ ho')
      · exact ih j o₁ stack₁ hj o' ho'

theorem above_of_reachable {R : State → Actor → Prop}
    (hstable : ∀ s a s' o, sys.Reachable s → R s o → sys.step a s = some s' → R s' o)
    (hcalls : ∀ x i a o stack s', allowed x (.call i a) → x.threads[i]? = some (o :: stack) →
      acts.begins x.state a = true → sys.step a x.state = some s' →
        R s' (acts.actor x.state a))
    (h : (acts.threaded sys).ReachableUnder allowed x) :
    ∀ stack ∈ x.threads, ∀ o ∈ stack.dropLast, R x.state o := by
  refine ReachableUnder.invariant
    (P := fun x => ∀ stack ∈ x.threads, ∀ o ∈ stack.dropLast, R x.state o) h
    (by simp [Activities.threaded]) ?_
  intro x b x' hx ih hallowed hnext
  have hs := state_of_threaded (ReachableUnder.reachable hx)
  cases effect_of_step hnext with
  | newThread => exact forall_mem_append ih (by simp)
  | @call i a stack s' hi _ _ hstep hbegins =>
      have hkept : ∀ stack ∈ x.threads, ∀ o ∈ stack.dropLast, R s' o := fun stack' hmem o ho =>
        hstable _ _ _ o hs (ih stack' hmem o ho) hstep
      refine forall_mem_set hkept fun o ho => ?_
      cases stack with
      | nil => cases ho
      | cons o₁ stack =>
          rw [List.dropLast_cons_cons] at ho
          rcases List.mem_cons.mp ho with rfl | ho
          · exact hcalls x i a o₁ stack s' hallowed hi hbegins hstep
          · exact hkept _ (mem_of_getElem? hi) o ho
  | run _ hstep => exact fun stack hmem o ho => hstable _ _ _ o hs (ih stack hmem o ho) hstep
  | @back i o₁ stack hi _ =>
      refine forall_mem_set ih fun o ho => ih _ (mem_of_getElem? hi) o ?_
      cases stack with
      | nil => cases ho
      | cons o₂ stack => exact List.mem_cons_of_mem _ ho

end

/-! ### Where no thread can go on -/

section

variable [DecidableEq Actor] {sys : TransitionSystem State Action}
  {acts : Activities State Action Actor Position} {driven : State → Action → Prop}
  {x : ThreadedState State Actor} {i : Nat} {o : Actor} {stack : List Actor} {a : Action}

theorem exists_idle_of_atRest (hrest : AtRest (acts.threaded sys) (byThreads driven) x) :
    ∃ i : Nat, x.threads[i]? = some [] := by
  refine exists_getElem?_of_hasIdle ?_
  by_contra hbusy
  have hnone := hrest .newThread (Bool.eq_false_iff.mpr hbusy)
  cases hnone

theorem not_over_of_atRest (hrest : AtRest (acts.threaded sys) (byThreads driven) x)
    (hi : x.threads[i]? = some (o :: stack)) :
    ∃ p, acts.position x.state o = some p ∧ acts.isOver p = false := by
  by_contra hover
  have hall : (acts.position x.state o).all acts.isOver = true := by
    cases hp : acts.position x.state o with
    | none => rfl
    | some p =>
        by_contra hnot
        exact hover ⟨p, hp, by simpa using hnot⟩
  have hnone := hrest (.back i) trivial
  simp [Activities.threaded, Activities.step, hi, hall] at hnone

variable (acts) in
theorem run_eq_none (hrest : AtRest (acts.threaded sys) (byThreads driven) x)
    (hi : x.threads[i]? = some (acts.actor x.state a :: stack)) (ha : driven x.state a)
    (hbegins : acts.begins x.state a = false) : sys.step a x.state = none := by
  have hnone := hrest (.run i a) ha
  simpa [Activities.threaded, Activities.step, hi, hbegins] using hnone

variable (sys) in
theorem call_of_fresh (hi : x.threads[i]? = some []) (hbegins : acts.begins x.state a = true)
    (hfresh : ∀ stack ∈ x.threads, acts.actor x.state a ∉ stack) :
    (acts.threaded sys).step (.call i a) x = (sys.step a x.state).map fun s' =>
      { state := s', threads := x.threads.set i [acts.actor x.state a] } := by
  have hguard : acts.begins x.state a = true ∧ acts.mayCall x.state [] = true ∧
      ∀ stack ∈ x.threads, acts.actor x.state a ∉ stack := ⟨hbegins, rfl, hfresh⟩
  simp only [Activities.threaded, Activities.step, hi, if_pos hguard]

theorem call_eq_none (hrest : AtRest (acts.threaded sys) (byThreads driven) x)
    (ha : driven x.state a) (hbegins : acts.begins x.state a = true)
    (hfresh : ∀ stack ∈ x.threads, acts.actor x.state a ∉ stack) : sys.step a x.state = none := by
  obtain ⟨i, hi⟩ := exists_idle_of_atRest hrest
  have hnone := hrest (.call i a) ⟨hi, ha⟩
  rwa [call_of_fresh sys hi hbegins hfresh, Option.map_eq_none_iff] at hnone

theorem fresh_of_atRest (hstanding : Standing sys acts) (hs : sys.Reachable x.state)
    (hrest : AtRest (acts.threaded sys) (byThreads driven) x) (halone : Alone x) {s' : State}
    (hbegins : acts.begins x.state a = true) (hstep : sys.step a x.state = some s') :
    ∀ stack ∈ x.threads, acts.actor x.state a ∉ stack := by
  intro stack hmem hactor
  obtain ⟨i, hi⟩ := halone.getElem? hmem hactor
  obtain ⟨p, hp, hover⟩ := not_over_of_atRest hrest hi
  have hall := hstanding _ _ _ hs hstep
  rw [hbegins, hp, Option.all_some, hover] at hall
  cases hall

/-- Where every activity is the only one of its thread, the threads hinder nothing. -/
theorem atRest_of_threads (hstanding : Standing sys acts) (hs : sys.Reachable x.state)
    (hcarried : Carried acts x) (hrest : AtRest (acts.threaded sys) (byThreads driven) x)
    (halone : Alone x) : AtRest sys driven x.state := by
  intro a ha
  by_contra hsome
  obtain ⟨s', hstep⟩ := Option.ne_none_iff_exists'.mp hsome
  have hall := hstanding _ _ _ hs hstep
  cases hbegins : acts.begins x.state a with
  | true =>
      exact hsome (call_eq_none hrest ha hbegins
        (fresh_of_atRest hstanding hs hrest halone hbegins hstep))
  | false =>
      rw [hbegins] at hall
      cases hp : acts.position x.state (acts.actor x.state a) with
      | none =>
          rw [hp] at hall
          cases hall
      | some p =>
          rw [hp, Option.all_some] at hall
          obtain ⟨stack, hmem, hactor⟩ := hcarried _ p hp hall
          obtain ⟨i, hi⟩ := halone.getElem? hmem hactor
          exact hsome (run_eq_none acts hrest hi ha hbegins)

end

end TokioExecutorProofs.RestingThreads
