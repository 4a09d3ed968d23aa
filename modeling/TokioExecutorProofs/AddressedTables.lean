import Mathlib.Logic.Function.Basic
import TokioExecutorProofs.TransitionSystems

/-!
A table whose keys are addresses of reference-counted markers. The allocator may
hand out the address of a marker again as soon as the last reference is gone, so
an address identifies a marker only while somebody holds on to it.

The system itself knows its markers by number. `addressed` lets a memory with
addresses run beside it, and `Lawful` is what the system owes for the table to
hold exactly the markers it regards as registered.
-/

namespace TokioExecutorProofs.AddressedTables

open TransitionSystems

universe u v w

variable {State : Type u} {Action : Type v} {Addr : Type w}

/-- What a step does to the table or to the heap. -/
inductive TableOp where
  | skip
  | allocate (m : Nat)
  | insert (m : Nat)
  | remove (m : Nat)
  | takeAll
  deriving DecidableEq, Repr

/-- The registration of a marker after an access that concerns it. -/
def TableOp.registers (before : Bool) : TableOp → Bool
  | .skip | .allocate _ => before
  | .insert _ => true
  | .remove _ | .takeAll => false

/-- The markers of a system, by number. -/
structure TableView (State : Type u) (Action : Type v) where
  op : State → Action → TableOp
  /-- Markers from here on have never been allocated. -/
  allocated : State → Nat
  /-- References to a marker. -/
  arcs : State → Nat → Nat
  isRegistered : State → Nat → Bool
  /-- A removal of the marker has completed. -/
  isRemoved : State → Nat → Bool

/-! ### The memory -/

structure Memory (Addr : Type w) where
  /-- Where a marker is, or was when its last reference was dropped. -/
  address : Nat → Option Addr := fun _ => none
  table : Addr → Option Nat := fun _ => none

namespace Memory

/-- The entry under the key of a marker. -/
def entryAt (mem : Memory Addr) (m : Nat) : Option Nat := (mem.address m).bind mem.table

def allocate (mem : Memory Addr) (m : Nat) (addr : Addr) : Memory Addr :=
  { mem with address := Function.update mem.address m (some addr) }

/-- Store `entry` under the key of a marker. -/
def store [DecidableEq Addr] (mem : Memory Addr) (m : Nat) (entry : Option Nat) : Memory Addr :=
  match mem.address m with
  | some addr => { mem with table := Function.update mem.table addr entry }
  | none => mem

end Memory

namespace TableView

variable (view : TableView State Action)

/-- No live marker is at the address. -/
def IsFree (s : State) (mem : Memory Addr) (addr : Addr) : Prop :=
  ∀ m < view.allocated s, 0 < view.arcs s m → mem.address m ≠ some addr

instance [DecidableEq Addr] (s : State) (mem : Memory Addr) (addr : Addr) :
    Decidable (view.IsFree s mem addr) :=
  inferInstanceAs (Decidable (∀ m < view.allocated s, _))

/-- The memory after a step; `addr` is what the allocator returns if the step
allocates. -/
def memoryStep [DecidableEq Addr] (s : State) (a : Action) (addr : Addr) (mem : Memory Addr) :
    Option (Memory Addr) :=
  match view.op s a with
  | .skip => some mem
  | .allocate m => if view.IsFree s mem addr then some (mem.allocate m addr) else none
  | .insert m => some (mem.store m (some m))
  | .remove m => some (mem.store m none)
  | .takeAll => some { mem with table := fun _ => none }

/-- The system with a memory beside it. -/
def addressed [DecidableEq Addr] (sys : TransitionSystem State Action) :
    TransitionSystem (State × Memory Addr) (Action × Addr) where
  start := (sys.start, {})
  step a x :=
    match sys.step a.1 x.1 with
    | none => none
    | some s' => (view.memoryStep x.1 a.1 a.2 x.2).map fun mem => (s', mem)

/-! ### What the system owes -/

/-- The registrations after a step. Whoever inserts or removes a marker has a
reference to it. -/
inductive TableMove (s s' : State) : TableOp → Prop
  | skip (h : ∀ m, view.isRegistered s' m = view.isRegistered s m) : TableMove s s' .skip
  | allocate {m : Nat} (hdead : view.arcs s m = 0)
      (h : ∀ m, view.isRegistered s' m = view.isRegistered s m) : TableMove s s' (.allocate m)
  | insert {m : Nat} (hlive : 0 < view.arcs s m) (hnew : view.isRegistered s m = false)
      (hself : view.isRegistered s' m = true)
      (h : ∀ m' ≠ m, view.isRegistered s' m' = view.isRegistered s m') :
      TableMove s s' (.insert m)
  | remove {m : Nat} (hlive : 0 < view.arcs s m) (hself : view.isRegistered s' m = false)
      (h : ∀ m' ≠ m, view.isRegistered s' m' = view.isRegistered s m') :
      TableMove s s' (.remove m)
  | takeAll (h : ∀ m, view.isRegistered s' m = false) : TableMove s s' .takeAll

/-- What a step does to the references and the registration of the only marker
that it concerns. -/
inductive OwnMove (m arcs arcs' : Nat) (registered registered' : Bool) : TableOp → Prop
  | skip (hdead : arcs = 0 → arcs' = 0) (h : registered' = registered) :
      OwnMove m arcs arcs' registered registered' .skip
  | allocate (hdead : arcs = 0) (h : registered' = registered) :
      OwnMove m arcs arcs' registered registered' (.allocate m)
  | insert (hlive : 0 < arcs) (hnew : registered = false) (hself : registered' = true) :
      OwnMove m arcs arcs' registered registered' (.insert m)
  | remove (hlive : 0 < arcs) (hself : registered' = false) :
      OwnMove m arcs arcs' registered registered' (.remove m)

/-- What a step does to all markers. -/
inductive MarkerMove (s s' : State) : TableOp → Prop
  | own {m : Nat} {op : TableOp}
      (h : OwnMove m (view.arcs s m) (view.arcs s' m) (view.isRegistered s m)
        (view.isRegistered s' m) op)
      (hother : ∀ m' ≠ m, view.arcs s' m' = view.arcs s m' ∧
        view.isRegistered s' m' = view.isRegistered s m') : MarkerMove s s' op
  | quiet (harcs : ∀ m, view.arcs s' m = view.arcs s m)
      (h : ∀ m, view.isRegistered s' m = view.isRegistered s m) : MarkerMove s s' .skip
  | takeAll (harcs : ∀ m, view.arcs s' m = view.arcs s m)
      (h : ∀ m, view.isRegistered s' m = false) : MarkerMove s s' .takeAll

structure Lawful (sys : TransitionSystem State Action) : Prop where
  start : ∀ m, view.arcs sys.start m = 0
  bounded : ∀ {s m}, sys.Reachable s → 0 < view.arcs s m → m < view.allocated s
  /-- An entry holds a reference to its marker. -/
  owned : ∀ {s m}, sys.Reachable s → view.isRegistered s m = true → 0 < view.arcs s m
  move : ∀ {s a s'}, sys.Reachable s → sys.step a s = some s' →
    view.MarkerMove s s' (view.op s a)
  removed : ∀ {s s' m}, sys.Reachable s → view.isRemoved s m = true → sys.Run s s' →
    view.isRegistered s' m = false

/-- The memory and the numbers tell the same story. -/
structure Agrees (s : State) (mem : Memory Addr) : Prop where
  keyed : ∀ addr m, mem.table addr = some m ↔
    view.isRegistered s m = true ∧ mem.address m = some addr
  live : ∀ m, 0 < view.arcs s m → ∃ addr, mem.address m = some addr
  distinct : ∀ m m' addr, 0 < view.arcs s m → 0 < view.arcs s m' →
    mem.address m = some addr → mem.address m' = some addr → m = m'

variable {view} {sys : TransitionSystem State Action} {s s' : State} {mem mem' : Memory Addr}
  {a : Action} {addr : Addr}

theorem MarkerMove.dead {op : TableOp} (h : view.MarkerMove s s' op) {m : Nat}
    (hop : op ≠ .allocate m) (hdead : view.arcs s m = 0) : view.arcs s' m = 0 := by
  cases h with
  | quiet harcs | takeAll harcs => rw [harcs, hdead]
  | @own m₀ _ h hother =>
      by_cases hm : m = m₀
      · subst m₀
        cases h with
        | skip hkeep => exact hkeep hdead
        | allocate => exact absurd rfl hop
        | insert hlive | remove hlive => omega
      · rw [(hother m hm).1, hdead]

theorem MarkerMove.table {op : TableOp} (h : view.MarkerMove s s' op) :
    view.TableMove s s' op := by
  cases h with
  | quiet _ h => exact .skip h
  | takeAll _ h => exact .takeAll h
  | @own m₀ _ h hother =>
      have hall : view.isRegistered s' m₀ = view.isRegistered s m₀ →
          ∀ m, view.isRegistered s' m = view.isRegistered s m := by
        intro hsame m
        by_cases hm : m = m₀
        · rw [hm, hsame]
        · exact (hother m hm).2
      cases h with
      | skip _ hsame => exact .skip (hall hsame)
      | allocate hdead hsame => exact .allocate hdead (hall hsame)
      | insert hlive hnew hself =>
          exact .insert hlive hnew hself fun m' hm => (hother m' hm).2
      | remove hlive hself => exact .remove hlive hself fun m' hm => (hother m' hm).2

theorem Agrees.allocate {m : Nat} (h : view.Agrees s mem) (hlaw : view.Lawful sys)
    (hs : sys.Reachable s) (hnext : sys.step a s = some s') (hop : view.op s a = .allocate m)
    (hfree : view.IsFree s mem addr) (hdead : view.arcs s m = 0)
    (hsame : ∀ m, view.isRegistered s' m = view.isRegistered s m) :
    view.Agrees s' (mem.allocate m addr) := by
  have hlive : ∀ m', m' ≠ m → 0 < view.arcs s' m' → 0 < view.arcs s m' := by
    intro m' hne hpos
    by_contra hzero
    have := (hlaw.move hs hnext).dead (by rw [hop]; simpa using hne.symm)
      (Nat.eq_zero_of_not_pos hzero)
    omega
  have hunregistered : view.isRegistered s m = false := by
    by_contra hregistered
    have := hlaw.owned hs (m := m) (by simpa using hregistered)
    omega
  have hfresh : ∀ m', m' ≠ m → 0 < view.arcs s' m' → mem.address m' ≠ some addr :=
    fun m' hne hpos => hfree m' (hlaw.bounded hs (hlive m' hne hpos)) (hlive m' hne hpos)
  refine ⟨fun addr' m' => ?_, fun m' hpos => ?_, fun m₁ m₂ addr' h₁ h₂ haddr₁ haddr₂ => ?_⟩
  · show mem.table addr' = some m' ↔
      view.isRegistered s' m' = true ∧ Function.update mem.address m (some addr) m' = some addr'
    rw [h.keyed, hsame]
    by_cases hm : m' = m
    · simp [hm, hunregistered]
    · rw [Function.update_of_ne hm]
  · show ∃ addr', Function.update mem.address m (some addr) m' = some addr'
    by_cases hm : m' = m
    · exact ⟨addr, by rw [hm, Function.update_self]⟩
    · rw [Function.update_of_ne hm]
      exact h.live m' (hlive m' hm hpos)
  · change Function.update mem.address m (some addr) m₁ = some addr' at haddr₁
    change Function.update mem.address m (some addr) m₂ = some addr' at haddr₂
    by_cases hm₁ : m₁ = m <;> by_cases hm₂ : m₂ = m
    · rw [hm₁, hm₂]
    · rw [hm₁, Function.update_self] at haddr₁
      rw [Function.update_of_ne hm₂, ← haddr₁] at haddr₂
      exact absurd haddr₂ (hfresh m₂ hm₂ h₂)
    · rw [hm₂, Function.update_self] at haddr₂
      rw [Function.update_of_ne hm₁, ← haddr₂] at haddr₁
      exact absurd haddr₁ (hfresh m₁ hm₁ h₁)
    · rw [Function.update_of_ne hm₁] at haddr₁
      rw [Function.update_of_ne hm₂] at haddr₂
      exact h.distinct m₁ m₂ addr' (hlive m₁ hm₁ h₁) (hlive m₂ hm₂ h₂) haddr₁ haddr₂

theorem Agrees.arcs_pos {m : Nat} (h : view.Agrees s mem) (hlaw : view.Lawful sys)
    (hs : sys.Reachable s) (hentry : mem.table addr = some m) :
    0 < view.arcs s m ∧ mem.address m = some addr :=
  have hkeyed := (h.keyed addr m).mp hentry
  ⟨hlaw.owned hs hkeyed.1, hkeyed.2⟩

theorem Agrees.entry_unique {m m' : Nat} (h : view.Agrees s mem) (hlaw : view.Lawful sys)
    (hs : sys.Reachable s) (hlive : 0 < view.arcs s m) (hentry : mem.entryAt m = some m') :
    m' = m := by
  obtain ⟨addr, haddr, htable⟩ := Option.bind_eq_some_iff.mp hentry
  obtain ⟨hlive', haddr'⟩ := h.arcs_pos hlaw hs htable
  exact h.distinct m' m addr hlive' hlive haddr' haddr

variable [DecidableEq Addr]

theorem Agrees.store {m : Nat} {entry : Option Nat} (h : view.Agrees s mem)
    (hlaw : view.Lawful sys) (hs : sys.Reachable s) (hlive : 0 < view.arcs s m)
    (hself : view.isRegistered s' m = decide (entry = some m))
    (hentry : ∀ m' ≠ m, entry ≠ some m')
    (hother : ∀ m' ≠ m, view.isRegistered s' m' = view.isRegistered s m')
    (hdead : ∀ m', 0 < view.arcs s' m' → 0 < view.arcs s m') :
    view.Agrees s' (mem.store m entry) := by
  obtain ⟨key, hkey⟩ := h.live m hlive
  have hstore : mem.store m entry =
      { mem with table := Function.update mem.table key entry } := by
    rw [Memory.store, hkey]
  rw [hstore]
  refine ⟨fun addr m' => ?_, fun m' hpos => h.live m' (hdead m' hpos),
    fun m₁ m₂ addr h₁ h₂ => h.distinct m₁ m₂ addr (hdead m₁ h₁) (hdead m₂ h₂)⟩
  show Function.update mem.table key entry addr = some m' ↔
    view.isRegistered s' m' = true ∧ mem.address m' = some addr
  by_cases haddr : addr = key
  · subst addr
    rw [Function.update_self]
    by_cases hm : m' = m
    · simp [hm, hself, hkey]
    · refine ⟨fun heq => absurd heq (hentry m' hm), fun hboth => ?_⟩
      have hlive' := hlaw.owned hs (hother m' hm ▸ hboth.1)
      exact absurd (h.distinct m' m key hlive' hlive hboth.2 hkey) hm
  · rw [Function.update_of_ne haddr, h.keyed]
    by_cases hm : m' = m
    · have hne : mem.address m' ≠ some addr := by
        rw [hm, hkey]
        exact fun heq => haddr (Option.some.inj heq).symm
      exact ⟨fun hboth => absurd hboth.2 hne, fun hboth => absurd hboth.2 hne⟩
    · rw [hother m' hm]

theorem Agrees.step (h : view.Agrees s mem) (hlaw : view.Lawful sys) (hs : sys.Reachable s)
    (hnext : sys.step a s = some s') (hmem : view.memoryStep s a addr mem = some mem') :
    view.Agrees s' mem' := by
  have hmove := (hlaw.move hs hnext).table
  have hdead : (∀ m, view.op s a ≠ .allocate m) → ∀ m, 0 < view.arcs s' m → 0 < view.arcs s m := by
    intro hno m hpos
    by_contra hzero
    have := (hlaw.move hs hnext).dead (hno m) (Nat.eq_zero_of_not_pos hzero)
    omega
  unfold memoryStep at hmem
  generalize hop : view.op s a = op at hmem hmove
  cases hmove with
  | allocate hzero hsame =>
      dsimp only at hmem
      split at hmem
      · rename_i hfree
        obtain rfl := Option.some.inj hmem
        exact h.allocate hlaw hs hnext hop hfree hzero hsame
      · cases hmem
  | skip hsame =>
      obtain rfl := Option.some.inj hmem
      have hlive := hdead (by simp [hop])
      exact ⟨fun addr m => by rw [h.keyed, hsame], fun m hpos => h.live m (hlive m hpos),
        fun m₁ m₂ addr h₁ h₂ => h.distinct m₁ m₂ addr (hlive m₁ h₁) (hlive m₂ h₂)⟩
  | insert hpos _ hself hother =>
      obtain rfl := Option.some.inj hmem
      exact h.store hlaw hs hpos (by simpa using hself) (by simp [eq_comm]) hother
        (hdead (by simp [hop]))
  | remove hpos hself hother =>
      obtain rfl := Option.some.inj hmem
      exact h.store hlaw hs hpos (by simpa using hself) (by simp) hother (hdead (by simp [hop]))
  | takeAll hnone =>
      obtain rfl := Option.some.inj hmem
      have hlive := hdead (by simp [hop])
      exact ⟨fun addr m => by simp [hnone], fun m hpos => h.live m (hlive m hpos),
        fun m₁ m₂ addr h₁ h₂ => h.distinct m₁ m₂ addr (hlive m₁ h₁) (hlive m₂ h₂)⟩

/-! ### Over whole runs -/

theorem step_of_addressed {b : Action × Addr} {x x' : State × Memory Addr}
    (h : (view.addressed sys).step b x = some x') :
    sys.step b.1 x.1 = some x'.1 ∧ view.memoryStep x.1 b.1 b.2 x.2 = some x'.2 := by
  simp only [addressed] at h
  split at h
  · cases h
  · rename_i s' hnext
    obtain ⟨mem', hmem, rfl⟩ := Option.map_eq_some_iff.mp h
    exact ⟨hnext, hmem⟩

theorem run_of_addressed {x x' : State × Memory Addr} (h : (view.addressed sys).Run x x') :
    sys.Run x.1 x'.1 :=
  RunUnder.preserves (P := fun x' => sys.Run x.1 x'.1) h (runUnder_refl _)
    fun _ _ _ hrun _ hnext => RunUnder.tail hrun trivial (step_of_addressed hnext).1

theorem agrees_of_reachable (hlaw : view.Lawful sys) {x : State × Memory Addr}
    (h : (view.addressed sys).Reachable x) : view.Agrees x.1 x.2 := by
  refine Reachable.invariant (P := fun x => view.Agrees x.1 x.2) h ?_ ?_
  · have hzero := hlaw.start
    have hnone : ∀ m, view.isRegistered sys.start m = false := by
      intro m
      by_contra hregistered
      have := hlaw.owned (runUnder_refl _) (m := m) (by simpa using hregistered)
      have := hzero m
      omega
    exact ⟨fun addr m => by simp [addressed, hnone],
      fun m hpos => by simp [addressed, hzero] at hpos,
      fun m m' addr hpos => by simp [addressed, hzero] at hpos⟩
  intro x b x' hx ih hnext
  obtain ⟨hstep, hmem⟩ := step_of_addressed hnext
  exact ih.step hlaw (run_of_addressed hx) hstep hmem

/-- The table never confuses two markers and never keeps a dead one. -/
structure Sound (view : TableView State Action) (sys : TransitionSystem State Action)
    (x : State × Memory Addr) : Prop where
  /-- A key is the address of the live marker of its own entry. -/
  key_live : ∀ addr m, x.2.table addr = some m →
    0 < view.arcs x.1 m ∧ x.2.address m = some addr ∧ view.isRegistered x.1 m = true
  /-- What the system regards as registered is in the table. -/
  registered_keyed : ∀ m, view.isRegistered x.1 m = true → x.2.entryAt m = some m
  /-- Two live markers have different keys. -/
  key_unique : ∀ m m' addr, 0 < view.arcs x.1 m → 0 < view.arcs x.1 m' →
    x.2.address m = some addr → x.2.address m' = some addr → m = m'
  /-- An insert replaces nothing. -/
  insert_new : ∀ b x' m, (view.addressed sys).step b x = some x' → view.op x.1 b.1 = .insert m →
    x.2.entryAt m = none ∧ x'.2.entryAt m = some m
  /-- A removal removes the own entry of the marker, if any. -/
  remove_own : ∀ b x' m, (view.addressed sys).step b x = some x' → view.op x.1 b.1 = .remove m →
    (x.2.entryAt m = none ∨ x.2.entryAt m = some m) ∧ x'.2.entryAt m = none ∧
      ∀ addr m', m' ≠ m → (x'.2.table addr = some m' ↔ x.2.table addr = some m')
  /-- A marker that has been removed has no entry in any later state. -/
  removed_absent : ∀ m, view.isRemoved x.1 m = true → ∀ x', (view.addressed sys).Run x x' →
    ∀ addr, x'.2.table addr ≠ some m

theorem table_store_self {m : Nat} {entry : Option Nat} {key : Addr}
    (hkey : mem.address m = some key) : (mem.store m entry).table key = entry := by
  rw [Memory.store, hkey]
  exact Function.update_self _ _ _

theorem entryAt_store {m : Nat} {entry : Option Nat} {key : Addr}
    (hkey : mem.address m = some key) : (mem.store m entry).entryAt m = entry := by
  simp [Memory.entryAt, Memory.store, hkey]

theorem table_store_of_ne {m : Nat} {entry : Option Nat} {key : Addr}
    (hkey : mem.address m = some key) (hne : addr ≠ key) :
    (mem.store m entry).table addr = mem.table addr := by
  rw [Memory.store, hkey]
  exact Function.update_of_ne hne _ _

theorem sound_of_reachable (hlaw : view.Lawful sys) {x : State × Memory Addr}
    (h : (view.addressed sys).Reachable x) : Sound view sys x := by
  have hs := run_of_addressed h
  have hagrees := agrees_of_reachable hlaw h
  refine ⟨fun addr m hentry => ?_, fun m hregistered => ?_, hagrees.distinct,
    fun b x' m hnext hop => ?_, fun b x' m hnext hop => ?_,
    fun m hremoved x' hrun addr hentry => ?_⟩
  · obtain ⟨hlive, haddr⟩ := hagrees.arcs_pos hlaw hs hentry
    exact ⟨hlive, haddr, ((hagrees.keyed addr m).mp hentry).1⟩
  · obtain ⟨key, hkey⟩ := hagrees.live m (hlaw.owned hs hregistered)
    have htable := (hagrees.keyed key m).mpr ⟨hregistered, hkey⟩
    exact Option.bind_eq_some_iff.mpr ⟨key, hkey, htable⟩
  · obtain ⟨hstep, hmem⟩ := step_of_addressed hnext
    have hmove := (hlaw.move hs hstep).table
    rw [hop] at hmove
    obtain ⟨hlive, hnew⟩ : 0 < view.arcs x.1 m ∧ view.isRegistered x.1 m = false := by
      cases hmove with
      | insert hlive hnew => exact ⟨hlive, hnew⟩
    obtain ⟨key, hkey⟩ := hagrees.live m hlive
    simp only [memoryStep, hop, Option.some.injEq] at hmem
    refine ⟨?_, by rw [← hmem, entryAt_store hkey]⟩
    cases hentry : x.2.entryAt m with
    | none => rfl
    | some m' =>
        obtain rfl := hagrees.entry_unique hlaw hs hlive hentry
        obtain ⟨addr, _, htable⟩ := Option.bind_eq_some_iff.mp hentry
        rw [((hagrees.keyed addr m').mp htable).1] at hnew
        cases hnew
  · obtain ⟨hstep, hmem⟩ := step_of_addressed hnext
    have hmove := (hlaw.move hs hstep).table
    rw [hop] at hmove
    have hlive : 0 < view.arcs x.1 m := by
      cases hmove with
      | remove hlive => exact hlive
    obtain ⟨key, hkey⟩ := hagrees.live m hlive
    simp only [memoryStep, hop, Option.some.injEq] at hmem
    have hown : x.2.entryAt m = none ∨ x.2.entryAt m = some m := by
      cases hentry : x.2.entryAt m with
      | none => exact .inl rfl
      | some m' =>
          rw [hagrees.entry_unique hlaw hs hlive hentry]
          exact .inr rfl
    refine ⟨hown, by rw [← hmem, entryAt_store hkey], fun addr m' hne => ?_⟩
    by_cases haddr : addr = key
    · have hbefore : x.2.table key = none ∨ x.2.table key = some m := by
        simpa [Memory.entryAt, hkey] using hown
      rw [haddr, ← hmem, table_store_self hkey]
      rcases hbefore with hbefore | hbefore <;> simp [hbefore, hne.symm]
    · rw [← hmem, table_store_of_ne hkey haddr]
  · have hagrees' := agrees_of_reachable hlaw (Reachable.run h hrun)
    have hregistered := ((hagrees'.keyed addr m).mp hentry).1
    rw [hlaw.removed hs hremoved (run_of_addressed hrun)] at hregistered
    cases hregistered

end TableView

end TokioExecutorProofs.AddressedTables
