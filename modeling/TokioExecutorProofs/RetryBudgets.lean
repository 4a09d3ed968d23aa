import TokioExecutorProofs.RestingSystems
import TokioExecutorProofs.RetryProtocols

/-!
Producers that do not retry for ever. Every advance of the generation is paid out
of a budget. A submission brings a share of it along and gives the share back when
it is refused, so that a producer is sent round its loop only as often as others
get through.
-/

namespace TokioExecutorProofs.RetryBudgets

open ProcessFamilies
open RestingSystems
open RetryProtocols
open RetryProtocols.RefusingService
open TransitionSystems

universe u v

variable {State : Type u} {Action : Type v} {sys : TransitionSystem State Action}

/-- What the service may do, and all that the producers who are there do. -/
def retries (allowed attempts : State → Action → Prop) (s : RetryState State) :
    RetryAction Action → Prop
  | .service a => allowed s.service a
  | .attempt _ a => attempts s.service a
  | .newProducer => False
  | .subscribe _ | .refusal _ | .changed _ => True

theorem retries_mono {allowed allowed' attempts attempts' : State → Action → Prop}
    (hle : ∀ s a, allowed s a → allowed' s a) (hattempts : ∀ s a, attempts s a → attempts' s a)
    (s : RetryState State) (b : RetryAction Action) (h : retries allowed attempts s b) :
    retries allowed' attempts' s b := by
  cases b with
  | service a => exact hle s.service a h
  | attempt p a => exact hattempts s.service a h
  | newProducer => exact h.elim
  | subscribe | refusal | changed => trivial

/-- A step spends what it advances the generation by; a refusal gives back the
share of one submission. -/
def Spends (r : RefusingService sys) (budget : State → Nat) (share : Nat) (s s' : State) : Prop :=
  (r.generation s' + budget s' ≤ r.generation s + budget s ∧
    ∀ n, r.refused n s' → r.refused n s) ∨
  ∃ n, r.generation s' + budget s' + share ≤ r.generation s + budget s ∧
    ∀ m, r.refused m s' → r.refused m s ∨ m = n

structure Budget (r : RefusingService sys) (allowed : State → Action → Prop) where
  rank : State → Nat
  lowers : Lowers sys allowed rank
  /-- What a submission adds to the rank. -/
  cost : State → Nat
  budget : State → Nat
  /-- What a submission adds to the budget. -/
  share : Nat
  submissions_le : ∀ {s a s'}, sys.step a s = some s' → r.submissions s ≤ r.submissions s'
  cost_step : ∀ {s a s'}, sys.Reachable s → allowed s a → sys.step a s = some s' →
    cost s' = cost s
  spends : ∀ {s a s'}, sys.Reachable s → allowed s a → sys.step a s = some s' →
    Spends r budget share s s'
  submit : ∀ {s a s'}, r.isSubmit a = true → sys.step a s = some s' →
    r.submissions s < r.submissions s' ∧ cost s' = cost s ∧ rank s' ≤ rank s + cost s ∧
      r.generation s' + budget s' ≤ r.generation s + budget s + share ∧
      ∀ n, r.refused n s' → r.refused n s

/-- What the service does to retrying producers when it comes to rest. -/
structure Settling (r : RefusingService sys) (reached : State → Prop)
    (driven attempts : State → Action → Prop) : Prop where
  submit : ∀ {s}, reached s → AtRest sys driven s →
    ∃ a s', attempts s a ∧ r.isSubmit a = true ∧ sys.step a s = some s'
  answered : ∀ {s n}, reached s → AtRest sys driven s → r.refused n s → r.answered n s = true
  condition : ∀ {s}, reached s → AtRest sys driven s → r.condition s ∧ ¬ r.owed s

/-! ### Submissions kept in a family -/

section

variable {Task : Type*} {tasks : State → List Task} {taskBudget : Task → Nat} {rest : State → Nat}
  {isRefused : Task → Prop} {r : RefusingService sys} {budget : State → Nat} {share : Nat}
  {s s' : State} {t : Nat} {τ τ' : Task}

theorem spends_of_task (hbudget : ∀ s, budget s = total taskBudget (tasks s) + rest s)
    (hrefused : ∀ n s, r.refused n s ↔ ∃ τ, (tasks s)[n]? = some τ ∧ isRefused τ)
    (hτ : (tasks s)[t]? = some τ) (htasks : tasks s' = (tasks s).set t τ')
    (hrest : rest s' ≤ rest s)
    (h : r.generation s' + taskBudget τ' ≤ r.generation s + taskBudget τ ∧
        (isRefused τ' → isRefused τ) ∨
      r.generation s' + taskBudget τ' + share ≤ r.generation s + taskBudget τ) :
    Spends r budget share s s' := by
  have htotal : total taskBudget (tasks s') + taskBudget τ =
      total taskBudget (tasks s) + taskBudget τ' := htasks ▸ total_set_add hτ
  have hother : ∀ n, n ≠ t → r.refused n s' → r.refused n s := by
    intro n hn hafter
    rw [hrefused, htasks, getElem?_set_of_ne hn, ← hrefused] at hafter
    exact hafter
  unfold Spends
  rw [hbudget, hbudget]
  rcases h with ⟨hle, hsame⟩ | hle
  · refine .inl ⟨by omega, fun n hafter => ?_⟩
    by_cases hn : n = t
    · subst hn
      obtain ⟨_, hn, hafter⟩ := (hrefused n s').mp hafter
      rw [htasks, getElem?_set_self_of_some hτ] at hn
      obtain rfl := Option.some.inj hn
      exact (hrefused n s).mpr ⟨τ, hτ, hsame hafter⟩
    · exact hother n hn hafter
  · refine .inr ⟨t, by omega, fun n hafter => ?_⟩
    by_cases hn : n = t
    · exact .inr hn
    · exact .inl (hother n hn hafter)

theorem spends_of_map {f : Task → Task}
    (hbudget : ∀ s, budget s = total taskBudget (tasks s) + rest s)
    (hrefused : ∀ n s, r.refused n s ↔ ∃ τ, (tasks s)[n]? = some τ ∧ isRefused τ)
    (htasks : tasks s' = (tasks s).map f) (hrest : rest s' ≤ rest s)
    (hgeneration : r.generation s' = r.generation s)
    (hle : ∀ τ ∈ tasks s, taskBudget (f τ) ≤ taskBudget τ)
    (hsame : ∀ τ, isRefused (f τ) → isRefused τ) : Spends r budget share s s' := by
  refine .inl ⟨?_, fun n hafter => ?_⟩
  · have htotal := total_map_le hle
    rw [hbudget, hbudget, hgeneration, htasks]
    omega
  · obtain ⟨τ', hτ', hafter⟩ := (hrefused n s').mp hafter
    rw [htasks, List.getElem?_map] at hτ'
    obtain ⟨τ, hτ, rfl⟩ := Option.map_eq_some_iff.mp hτ'
    exact (hrefused n s).mpr ⟨τ, hτ, hsame τ hafter⟩

end

/-! ### Submissions and producers -/

section

variable {α : Type*} {family : List α} {p q : α → Bool} {R : α → Prop}

theorem countP_le_succ
    (h : ∀ x ∈ family, q x = true → p x = true ∨ R x)
    (hunique : ∀ {i j : Nat} {x y : α}, family[i]? = some x → family[j]? = some y →
      R x → R y → i = j) :
    family.countP q ≤ family.countP p + 1 := by
  rw [← card_indices, ← card_indices]
  by_cases hnew : ∃ (i : Nat) (x : α), family[i]? = some x ∧ R x
  · obtain ⟨i, x, hx, hR⟩ := hnew
    refine (Finset.card_le_card fun j hj => ?_).trans (Finset.card_insert_le i _)
    obtain ⟨y, hy, hq⟩ := mem_indices.mp hj
    rcases h y (mem_of_getElem? hy) hq with hp | hR'
    · exact Finset.mem_insert_of_mem (mem_indices.mpr ⟨y, hy, hp⟩)
    · rw [hunique hy hx hR' hR]
      exact Finset.mem_insert_self _ _
  · refine (Finset.card_le_card fun j hj => ?_).trans (Nat.le_succ _)
    obtain ⟨y, hy, hq⟩ := mem_indices.mp hj
    refine mem_indices.mpr ⟨y, hy, (h y (mem_of_getElem? hy) hq).resolve_right fun hR => ?_⟩
    exact hnew ⟨j, y, hy, hR⟩

end

/-- No two producers wait for the answer to one submission. -/
structure Numbered (r : RefusingService sys) (s : RetryState State) : Prop where
  lt : ∀ {p seen n : Nat}, s.producers[p]? = some (.attempting seen n) →
    n < r.submissions s.service
  unique : ∀ {p q seen seen' n : Nat}, s.producers[p]? = some (.attempting seen n) →
    s.producers[q]? = some (.attempting seen' n) → p = q

namespace Budget

variable {r : RefusingService sys} {allowed : State → Action → Prop} {s s' : RetryState State}
  {b : RetryAction Action}

theorem not_attempting_of_producerStep {t : State} {x x' : Producer} {seen n : Nat}
    (h : r.producerStep t b x = some x') : x' ≠ .attempting seen n := by
  unfold producerStep at h
  split at h
  · rw [← Option.some.inj h]
    simp
  · split at h
    · rw [← Option.some.inj h]
      simp
    · cases h
  · split at h
    · cases h
    · rw [← Option.some.inj h]
      simp
  · cases h

theorem numbered_of_reachable (d : Budget r allowed) (h : r.retrying.Reachable s) :
    Numbered r s := by
  refine Reachable.invariant (P := Numbered r) h ⟨?_, ?_⟩ ?_
  · simp [retrying]
  · simp [retrying]
  intro s b s' _ ih hnext
  cases effect_of_retryStep hnext with
  | service hstep =>
      exact ⟨fun hp => Nat.lt_of_lt_of_le (ih.lt hp) (d.submissions_le hstep), ih.unique⟩
  | newProducer =>
      have hold : ∀ {p seen n : Nat},
          (s.producers ++ [Producer.start])[p]? = some (.attempting seen n) →
          s.producers[p]? = some (.attempting seen n) := by
        intro p seen n hp
        exact (getElem?_append_cases hp).resolve_right (by simp)
      exact ⟨fun hp => ih.lt (hold hp), fun hp hq => ih.unique (hold hp) (hold hq)⟩
  | @producer i b x x' hx hstep =>
      have hold : ∀ {p seen n : Nat}, (s.producers.set i x')[p]? = some (.attempting seen n) →
          s.producers[p]? = some (.attempting seen n) := by
        intro p seen n hp
        rcases getElem?_set_cases hp with ⟨_, heq⟩ | ⟨_, hp⟩
        · exact absurd heq.symm (not_attempting_of_producerStep hstep)
        · exact hp
      exact ⟨fun hp => ih.lt (hold hp), fun hp hq => ih.unique (hold hp) (hold hq)⟩
  | @attempt i a seen₀ t hx hsubmit hstep =>
      have hlt := (d.submit hsubmit hstep).1
      have hold : ∀ {p seen n : Nat},
          (s.producers.set i (.attempting seen₀ (r.submissions s.service)))[p]? =
            some (.attempting seen n) →
          (p = i ∧ n = r.submissions s.service) ∨
            (n < r.submissions s.service ∧ s.producers[p]? = some (.attempting seen n)) := by
        intro p seen n hp
        rcases getElem?_set_cases hp with ⟨hpi, heq⟩ | ⟨_, hp⟩
        · exact .inl ⟨hpi, (Producer.attempting.inj heq).2⟩
        · exact .inr ⟨ih.lt hp, hp⟩
      refine ⟨fun {p seen n} hp => ?_, fun {p q seen seen' n} hp hq => ?_⟩
      · show n < r.submissions t
        rcases hold hp with ⟨_, heq⟩ | ⟨hn, _⟩ <;> omega
      · rcases hold hp with ⟨hpi, hn⟩ | ⟨hn, hp⟩
        · rcases hold hq with ⟨hqi, _⟩ | ⟨hn', _⟩
          · exact hpi.trans hqi.symm
          · omega
        · rcases hold hq with ⟨_, hn'⟩ | ⟨_, hq⟩
          · omega
          · exact ih.unique hp hq

/-! ### The ceiling of the generation -/

/-- The producer has a submission still to make. -/
def Outstanding (r : RefusingService sys) (t : State) : Producer → Prop
  | .start | .ready _ | .waiting _ => True
  | .attempting _ n => r.refused n t

open Classical in
noncomputable def isOutstanding (r : RefusingService sys) (t : State) (x : Producer) : Bool :=
  decide (Outstanding r t x)

theorem isOutstanding_iff {t : State} {x : Producer} :
    isOutstanding r t x = true ↔ Outstanding r t x := by
  classical exact decide_eq_true_iff

/-- The generation never exceeds what it is now, what the service can still spend
and what the submissions still to come can spend. -/
noncomputable def ceiling (d : Budget r allowed) (s : RetryState State) : Nat :=
  r.generation s.service + d.budget s.service +
    d.share * s.producers.countP (isOutstanding r s.service)

/-- The way that a producer has before it, if the generation stays below a ceiling. -/
def producerRank (ceiling : Nat) : Producer → Nat
  | .start => 3 * ceiling + 3
  | .ready seen => 3 * (ceiling - seen) + 2
  | .attempting seen _ => 3 * (ceiling - seen) + 1
  | .waiting seen => 3 * (ceiling - seen)

theorem producerRank_le {c c' : Nat} (h : c' ≤ c) (x : Producer) :
    producerRank c' x ≤ producerRank c x := by
  cases x <;> simp only [producerRank] <;> omega

noncomputable def retryRank (d : Budget r allowed) (s : RetryState State) : Nat :=
  (d.cost s.service + 1) * total (producerRank (d.ceiling s)) s.producers + d.rank s.service

theorem countP_outstanding_le (hn : Numbered r s) {t : State} {n : Nat}
    (h : ∀ m, r.refused m t → r.refused m s.service ∨ m = n) :
    s.producers.countP (isOutstanding r t) ≤
      s.producers.countP (isOutstanding r s.service) + 1 := by
  refine countP_le_succ (R := fun x => ∃ seen, x = Producer.attempting seen n) ?_ ?_
  · intro x _ hx
    rw [isOutstanding_iff] at hx ⊢
    cases x with
    | start | ready | waiting => exact .inl trivial
    | attempting seen m =>
        rcases h m hx with hrefused | rfl
        · exact .inl hrefused
        · exact .inr ⟨seen, rfl⟩
  · rintro i j _ _ hi hj ⟨_, rfl⟩ ⟨_, rfl⟩
    exact hn.unique hi hj

theorem countP_outstanding_mono {t t' : State} (h : ∀ m, r.refused m t' → r.refused m t)
    (producers : List Producer) :
    producers.countP (isOutstanding r t') ≤ producers.countP (isOutstanding r t) := by
  refine List.countP_mono_left fun x _ hx => ?_
  rw [isOutstanding_iff] at hx ⊢
  cases x with
  | start | ready | waiting => trivial
  | attempting seen n => exact h n hx

theorem ceiling_of_service (d : Budget r allowed) (h : r.retrying.Reachable s) {a : Action}
    {t : State} (ha : allowed s.service a) (hstep : sys.step a s.service = some t) :
    d.ceiling { s with service := t } ≤ d.ceiling s := by
  unfold ceiling
  rcases d.spends (reachable_service h) ha hstep with ⟨hle, hrefused⟩ | ⟨n, hle, hrefused⟩
  · have hcount := countP_outstanding_mono hrefused s.producers
    have := Nat.mul_le_mul_left d.share hcount
    dsimp only
    omega
  · have hcount := countP_outstanding_le (d.numbered_of_reachable h) hrefused
    have := Nat.mul_le_mul_left d.share hcount
    rw [Nat.mul_add, Nat.mul_one] at this
    dsimp only
    omega

theorem ceiling_of_producer (d : Budget r allowed) {p : Nat} {x x' : Producer}
    (hx : s.producers[p]? = some x) (hstep : r.producerStep s.service b x = some x') :
    d.ceiling { s with producers := s.producers.set p x' } = d.ceiling s := by
  unfold ceiling
  dsimp only
  rw [countP_set_of_eq hx]
  have hafter : Outstanding r s.service x' := by
    cases x' with
    | start | ready | waiting => trivial
    | attempting => exact absurd rfl (not_attempting_of_producerStep hstep)
  have hbefore : Outstanding r s.service x := by
    cases x with
    | start | ready | waiting => trivial
    | attempting seen n =>
        cases b <;> simp only [producerStep, reduceCtorEq] at hstep
        split at hstep
        · rename_i hanswered
          exact r.refused_of_answered hanswered
        · cases hstep
  rw [isOutstanding_iff.mpr hafter, isOutstanding_iff.mpr hbefore]

theorem ceiling_of_attempt (d : Budget r allowed) {p seen : Nat} {a : Action} {t : State}
    (hx : s.producers[p]? = some (.ready seen))
    (hsubmit : r.isSubmit a = true) (hstep : sys.step a s.service = some t) :
    d.ceiling { service := t
                producers := s.producers.set p (.attempting seen (r.submissions s.service)) } ≤
      d.ceiling s := by
  obtain ⟨_, _, _, hle, hrefused⟩ := d.submit hsubmit hstep
  have hcount := countP_set_add (y := .attempting seen (r.submissions s.service))
    (isOutstanding r t) hx
  have hready : isOutstanding r t (.ready seen) = true :=
    isOutstanding_iff.mpr trivial
  have hnew : isOutstanding r t (.attempting seen (r.submissions s.service)) = false :=
    Bool.eq_false_iff.mpr fun h => r.not_refused_of_submit hsubmit hstep (isOutstanding_iff.mp h)
  rw [weight_of_true hready, weight_of_false hnew] at hcount
  have hmono := countP_outstanding_mono hrefused s.producers
  have hone : (s.producers.set p (.attempting seen (r.submissions s.service))).countP
      (isOutstanding r t) + 1 ≤ s.producers.countP (isOutstanding r s.service) := by omega
  have := Nat.mul_le_mul_left d.share hone
  rw [Nat.mul_add, Nat.mul_one] at this
  unfold ceiling
  dsimp only
  omega

theorem producerRank_lt (d : Budget r allowed) (h : r.retrying.Reachable s) {x x' : Producer}
    (hx : x ∈ s.producers) (hstep : r.producerStep s.service b x = some x') :
    producerRank (d.ceiling s) x' < producerRank (d.ceiling s) x := by
  have hknows := knows_of_reachable h x hx
  have hceiling : r.generation s.service ≤ d.ceiling s := by
    unfold ceiling
    omega
  unfold producerStep at hstep
  split at hstep
  · rw [← Option.some.inj hstep]
    simp only [producerRank]
    omega
  · split at hstep
    · rw [← Option.some.inj hstep]
      simp only [producerRank]
      omega
    · cases hstep
  · rename_i seen
    split at hstep
    · cases hstep
    · rename_i hne
      have hle : seen ≤ r.generation s.service := hknows.le
      rw [← Option.some.inj hstep]
      simp only [producerRank]
      omega
  · cases hstep

/-! ### Runs -/

theorem retryRank_lowers (d : Budget r allowed) (attempts : State → Action → Prop) :
    Lowers r.retrying (retries allowed attempts) d.retryRank := by
  intro s b s' h hb hnext
  have hs := reachable_service h
  have htotal : ∀ {c c' : Nat}, c' ≤ c → ∀ producers : List Producer,
      total (producerRank c') producers ≤ total (producerRank c) producers := by
    intro c c' hle producers
    exact List.sum_le_sum fun x _ => producerRank_le hle x
  have hservice : ∀ {a t}, allowed s.service a → sys.step a s.service = some t →
      d.retryRank { s with service := t } < d.retryRank s := by
    intro a t ha hstep
    have hlt := d.lowers _ _ _ hs ha hstep
    have hle := Nat.mul_le_mul_left (d.cost s.service + 1)
      (htotal (d.ceiling_of_service h ha hstep) s.producers)
    unfold retryRank
    dsimp only at *
    rw [d.cost_step hs ha hstep]
    omega
  have hproducer : ∀ {p b x x'}, s.producers[p]? = some x →
      r.producerStep s.service b x = some x' →
      d.retryRank { s with producers := s.producers.set p x' } < d.retryRank s := by
    intro p b x x' hx hstep
    have hlt := total_set_lt hx (d.producerRank_lt h (mem_of_getElem? hx) hstep)
    have hmul := Nat.mul_lt_mul_of_pos_left hlt (Nat.succ_pos (d.cost s.service))
    unfold retryRank
    rw [d.ceiling_of_producer hx hstep]
    exact Nat.add_lt_add_right hmul _
  have hattempt : ∀ {p seen a t}, s.producers[p]? = some (.ready seen) → r.isSubmit a = true →
      sys.step a s.service = some t →
      d.retryRank { service := t
                    producers := s.producers.set p (.attempting seen (r.submissions s.service)) } <
        d.retryRank s := by
    intro p seen a t hx hsubmit hstep
    obtain ⟨_, hcost, hrank, _, _⟩ := d.submit hsubmit hstep
    have hle := htotal (d.ceiling_of_attempt hx hsubmit hstep)
      (s.producers.set p (.attempting seen (r.submissions s.service)))
    have hlt : total (producerRank (d.ceiling s)) (s.producers.set p
        (.attempting seen (r.submissions s.service))) <
          total (producerRank (d.ceiling s)) s.producers :=
      total_set_lt hx (by simp [producerRank])
    have hmul := Nat.mul_le_mul_left (d.cost s.service + 1) (Nat.succ_le_of_lt (hle.trans_lt hlt))
    rw [Nat.mul_succ] at hmul
    unfold retryRank
    dsimp only
    rw [hcost]
    omega
  cases b <;> simp only [retrying, retryStep] at hnext
  case service a =>
    obtain ⟨t, hstep, rfl⟩ := Option.map_eq_some_iff.mp hnext
    exact hservice hb hstep
  case newProducer => exact hb.elim
  case attempt p a =>
    unfold RefusingService.attempt at hnext
    split at hnext
    · rename_i seen hx
      split at hnext
      · rename_i hsubmit
        obtain ⟨t, hstep, rfl⟩ := Option.map_eq_some_iff.mp hnext
        exact hattempt hx hsubmit hstep
      · cases hnext
    · cases hnext
  all_goals
    unfold onProducer at hnext
    split at hnext
    · cases hnext
    · rename_i x hx
      obtain ⟨x', hstep, rfl⟩ := Option.map_eq_some_iff.mp hnext
      exact hproducer hx hstep

end Budget

section

variable {r : RefusingService sys} {allowed driven attempts : State → Action → Prop}
  {reached : State → Prop} {s : RetryState State}

theorem settled_of_atRest (hsettling : Settling r reached driven attempts)
    (h : r.retrying.Reachable s) (hs : reached s.service)
    (hrest : AtRest r.retrying (retries driven attempts) s) :
    AtRest sys driven s.service ∧ ∀ x ∈ s.producers, ∃ seen n, x = .attempting seen n ∧
      ¬ r.refused n s.service := by
  have hservice : AtRest sys driven s.service := by
    intro a ha
    have hnone := hrest (.service a) ha
    simpa [retrying, retryStep] using hnone
  refine ⟨hservice, fun x hmem => ?_⟩
  obtain ⟨p, hp⟩ := List.mem_iff_getElem?.mp hmem
  cases x with
  | start =>
      have hnone := hrest (.subscribe p) trivial
      simp [retrying, retryStep, onProducer, hp, producerStep] at hnone
  | ready seen =>
      obtain ⟨a, t, ha, hsubmit, hstep⟩ := hsettling.submit hs hservice
      have hnone := hrest (.attempt p a) ha
      simp [retrying, retryStep, RefusingService.attempt, hp, hsubmit, hstep] at hnone
  | attempting seen n =>
      refine ⟨seen, n, rfl, fun hrefused => ?_⟩
      have hnone := hrest (.refusal p) trivial
      simp [retrying, retryStep, onProducer, hp, producerStep,
        hsettling.answered hs hservice hrefused] at hnone
  | waiting seen =>
      obtain ⟨hcondition, howed⟩ := hsettling.condition hs hservice
      have hnone := hrest (.changed p) trivial
      simp [retrying, retryStep, onProducer, hp, producerStep] at hnone
      exact absurd (owed_of_waiting h hmem hnone hcondition) howed

/-- Retrying producers come to rest, in any order of steps, and there each of them
has an answer that is no refusal. -/
theorem Budget.settles (d : Budget r allowed) (hsettling : Settling r reached driven attempts)
    (hdriven : ∀ s a, driven s a → allowed s a) (h : r.retrying.Reachable s) :
    (∀ n s', StepsUnder r.retrying (retries allowed fun _ _ => True) n s s' →
      n ≤ d.retryRank s) ∧
    (∃ s', r.retrying.RunUnder (retries driven attempts) s s' ∧
      AtRest r.retrying (retries driven attempts) s') ∧
    ∀ s', r.retrying.Run s s' → reached s'.service →
      AtRest r.retrying (retries driven attempts) s' →
        AtRest sys driven s'.service ∧ ∀ x ∈ s'.producers, ∃ seen n, x = .attempting seen n ∧
          n < r.submissions s'.service ∧ ¬ r.refused n s'.service := by
  refine ⟨fun n s' hrun => ?_, ?_, fun s' hrun hs' hrest => ?_⟩
  · have := (d.retryRank_lowers fun _ _ => True).length_add_le h hrun
    omega
  · have hlowers : Lowers r.retrying (retries driven attempts) d.retryRank :=
      (d.retryRank_lowers attempts).mono (retries_mono hdriven fun _ _ => id)
    exact hlowers.exists_atRest h
  · have h' := Reachable.run h hrun
    obtain ⟨hservice, hproducers⟩ := settled_of_atRest hsettling h' hs' hrest
    refine ⟨hservice, fun x hx => ?_⟩
    obtain ⟨p, hp⟩ := List.mem_iff_getElem?.mp hx
    obtain ⟨seen, n, rfl, hrefused⟩ := hproducers x hx
    exact ⟨seen, n, rfl, (d.numbered_of_reachable h').lt hp, hrefused⟩

end

end TokioExecutorProofs.RetryBudgets
