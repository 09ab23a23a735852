import Mathlib

/-! # A job that is finished when its quota is used up

The results of a job are spread over workers. A worker takes a result, merges its body and then its
stamp into a buffer of its own, and subtracts its weight from the shared counter. Whoever brings the
counter to zero ships the buffers of all workers. `Step` says what one worker or the outside can do;
the job does not know how many results will arrive, only how much they weigh together.
-/

namespace CsdWorker.Quota

set_option autoImplicit false

universe u v w

structure Spec (R : Type u) (M : Type v) [AddCommMonoid M] where
  body : R → M
  stamp : R → M
  blocks : M →+ ℤ
  quota : R → ℤ
  blocks_body : ∀ r, blocks (body r) = 0

inductive Stage (ι : Type w) (R : Type u) (M : Type v) where
  | away
  | taken (r : R)
  | opened (r : R)
  | merging (r : R) (rest : M)
  | counting (r : R)
  | releasing (todo : List ι)

structure State (ι : Type w) (R : Type u) (M : Type v) where
  arrived : Multiset R
  queued : Multiset R
  finished : Multiset R
  stage : ι → Stage ι R M
  counter : Option ℤ
  buffer : ι → Option M
  shipped : List M
  zeros : ℕ

section Sums
variable {ι : Type w} {α : Type u} {M : Type v} [Fintype ι] [DecidableEq ι] [AddCommMonoid M]

theorem sum_update_add (g : α → M) (f : ι → α) (i : ι) (x : α) :
    ∑ j, g (Function.update f i x j) + g (f i) = ∑ j, g (f j) + g x := by
  have hUpdate : ∀ j, g (Function.update f i x j) = Function.update (fun j => g (f j)) i (g x) j := by
    intro j
    rcases eq_or_ne j i with rfl | h
    · simp
    · simp [h]
  simp only [hUpdate]
  rw [Finset.sum_update_of_mem (Finset.mem_univ i), Finset.sdiff_singleton_eq_erase,
    ← Finset.add_sum_erase Finset.univ (fun j => g (f j)) (Finset.mem_univ i)]
  abel

/-- A choice of equal parts and a remainder that makes up the whole is all of them, unless some of the
equal parts do. -/
theorem parts_eq {part quota : ℤ} {k : ℕ} (hPart : part ≠ 0) (hParts : ∀ j : ℕ, 1 ≤ j → j ≤ k → part * j ≠ quota)
    {vs : Multiset ℤ} (hle : vs ≤ (quota - part * k) ::ₘ Multiset.replicate k part) (hne : vs ≠ 0)
    (hSum : vs.sum = quota) : vs = (quota - part * k) ::ₘ Multiset.replicate k part := by
  rcases em (quota - part * k ∈ vs) with hMem | hMem
  · obtain ⟨us, rfl⟩ := Multiset.exists_cons_of_mem hMem
    obtain ⟨j, -, rfl⟩ := Multiset.le_replicate_iff.mp ((Multiset.cons_le_cons_iff _).mp hle)
    have hEq : part * (j : ℤ) = part * k := by
      rw [Multiset.sum_cons, Multiset.sum_replicate, nsmul_eq_mul] at hSum
      linarith
    rw [Nat.cast_inj.mp (mul_left_cancel₀ hPart hEq)]
  · obtain ⟨j, hj, rfl⟩ := Multiset.le_replicate_iff.mp ((Multiset.le_cons_of_notMem hMem).mp hle)
    rw [Multiset.sum_replicate, nsmul_eq_mul, mul_comm] at hSum
    have hPos : 1 ≤ j := Nat.one_le_iff_ne_zero.mpr fun h => hne (by rw [h, Multiset.replicate_zero])
    exact absurd hSum (hParts j hPos hj)

end Sums

namespace Stage
variable {ι : Type w} {R : Type u} {M : Type v} (r : R) (m : M) (todo : List ι)

def hand : Stage ι R M → Multiset R
  | away | releasing _ => 0
  | taken r | opened r | merging r _ | counting r => {r}

@[simp] theorem hand_away : (away : Stage ι R M).hand = 0 := rfl
@[simp] theorem hand_taken : (taken r : Stage ι R M).hand = {r} := rfl
@[simp] theorem hand_opened : (opened r : Stage ι R M).hand = {r} := rfl
@[simp] theorem hand_merging : (merging r m : Stage ι R M).hand = {r} := rfl
@[simp] theorem hand_counting : (counting r : Stage ι R M).hand = {r} := rfl
@[simp] theorem hand_releasing : (releasing todo : Stage ι R M).hand = 0 := rfl

end Stage

section
variable {ι : Type w} {R : Type u} {M : Type v} [AddCommMonoid M]

namespace Spec

variable (P : Spec R M)

def content (r : R) : M := P.body r + P.stamp r

def weight (r : R) : ℤ := P.blocks (P.stamp r)

def weights (rs : Multiset R) : ℤ := (rs.map P.weight).sum

@[simp] theorem weights_zero : P.weights 0 = 0 := rfl

@[simp] theorem weights_add (rs ts : Multiset R) : P.weights (rs + ts) = P.weights rs + P.weights ts := by
  simp [weights]

@[simp] theorem weights_singleton (r : R) : P.weights {r} = P.weight r := by simp [weights]

theorem blocks_content (r : R) : P.blocks (P.content r) = P.weight r := by
  rw [content, map_add, P.blocks_body, zero_add, weight]

/-- No part of the results but all of them weighs the quota. -/
def NoEarly (quota : ℤ) (rs : Multiset R) : Prop := ∀ ts ≤ rs, ts ≠ 0 → P.weights ts = quota → ts = rs

theorem NoEarly.mono {P : Spec R M} {quota : ℤ} {rs ts : Multiset R} (h : P.NoEarly quota ts) (hle : rs ≤ ts) :
    P.NoEarly quota rs := by
  intro us hus hne hQuota
  have hAll := h us (hus.trans hle) hne hQuota
  exact le_antisymm hus (hAll ▸ hle)

theorem weights_pos {rs : Multiset R} (h : ∀ r ∈ rs, 0 < P.weight r) (hne : rs ≠ 0) : 0 < P.weights rs := by
  induction rs using Multiset.induction with
  | empty => exact absurd rfl hne
  | cons r rs ih =>
    rw [weights, Multiset.map_cons, Multiset.sum_cons, ← weights]
    have hr := h r (Multiset.mem_cons_self r rs)
    have hRest := fun t ht => h t (Multiset.mem_cons_of_mem ht)
    rcases eq_or_ne rs 0 with rfl | hrs
    · simpa using hr
    · have := ih hRest hrs
      omega

theorem noEarly_of_pos {quota : ℤ} {rs : Multiset R} (h : ∀ r ∈ rs, 0 < P.weight r)
    (hQuota : P.weights rs ≤ quota) : P.NoEarly quota rs := by
  intro ts hts hne hEq
  obtain ⟨us, rfl⟩ := Multiset.le_iff_exists_add.mp hts
  rcases eq_or_ne us 0 with rfl | hus
  · rw [add_zero]
  · have hPos := P.weights_pos (fun r hr => h r (Multiset.mem_add.mpr (Or.inr hr))) hus
    rw [weights_add] at hQuota
    omega

theorem noEarly_of_weights {quota : ℤ} {rs : Multiset R} {ws : Multiset ℤ} (hle : rs.map P.weight ≤ ws)
    (hws : ∀ vs ≤ ws, vs ≠ 0 → vs.sum = quota → vs = ws) : P.NoEarly quota rs := by
  intro ts hts hne hQuota
  have hMap := hws (ts.map P.weight) ((Multiset.map_le_map hts).trans hle) (by simpa using hne) hQuota
  refine Multiset.eq_of_le_of_card_le hts ?_
  calc rs.card = (rs.map P.weight).card := (Multiset.card_map _ _).symm
    _ ≤ ws.card := Multiset.card_le_card hle
    _ = ts.card := by rw [← hMap, Multiset.card_map]

end Spec

namespace Stage

def rest (P : Spec R M) : Stage ι R M → M
  | away | releasing _ | counting _ => 0
  | taken r | opened r => P.content r
  | merging r rest => rest + P.stamp r

section
variable (P : Spec R M) (r : R) (m : M) (todo : List ι)

@[simp] theorem rest_away : (away : Stage ι R M).rest P = 0 := rfl
@[simp] theorem rest_taken : (taken r : Stage ι R M).rest P = P.content r := rfl
@[simp] theorem rest_opened : (opened r : Stage ι R M).rest P = P.content r := rfl
@[simp] theorem rest_merging : (merging r m : Stage ι R M).rest P = m + P.stamp r := rfl
@[simp] theorem rest_counting : (counting r : Stage ι R M).rest P = 0 := rfl
@[simp] theorem rest_releasing : (releasing todo : Stage ι R M).rest P = 0 := rfl

end

end Stage

namespace State

def Free (s : State ι R M) : Prop := ∀ w todo, s.stage w ≠ .releasing todo

def amount (s : State ι R M) (w : ι) : M := (s.buffer w).getD 0

end State

/-- The steps of the job. Opening the counter and counting down need the lock that a release holds. -/
inductive Step [DecidableEq ι] (P : Spec R M) (s : State ι R M) : State ι R M → Prop where
  | arrive (r : R) : Step P s { s with arrived := s.arrived + {r}, queued := s.queued + {r} }
  | take (w : ι) (r : R) (rs : Multiset R) (hStage : s.stage w = .away) (hQueue : s.queued = rs + {r}) :
    Step P s { s with queued := rs, stage := Function.update s.stage w (.taken r) }
  | openCounter (w : ι) (r : R) (hStage : s.stage w = .taken r) (hFree : s.Free) :
    Step P s { s with
      stage := Function.update s.stage w (.opened r)
      counter := some (s.counter.getD (P.quota r)) }
  | begin (w : ι) (r : R) (hStage : s.stage w = .opened r) :
    Step P s { s with
      stage := Function.update s.stage w (.merging r (P.body r))
      buffer := Function.update s.buffer w (some (s.amount w)) }
  | touch (w : ι) (r : R) (rest : M) (hStage : s.stage w = .merging r rest) :
    Step P s { s with buffer := Function.update s.buffer w (some (s.amount w)) }
  | flush (w : ι) (r : R) (rest : M) (hStage : s.stage w = .merging r rest) :
    Step P s { s with
      buffer := Function.update s.buffer w (some 0)
      shipped := s.shipped ++ [s.amount w] }
  | merge (w : ι) (r : R) (part rest : M) (hStage : s.stage w = .merging r (part + rest))
      (hPart : P.blocks part = 0) :
    Step P s { s with
      stage := Function.update s.stage w (.merging r rest)
      buffer := Function.update s.buffer w (some (s.amount w + part)) }
  | stamp (w : ι) (r : R) (hStage : s.stage w = .merging r 0) :
    Step P s { s with
      stage := Function.update s.stage w (.counting r)
      buffer := Function.update s.buffer w (some (s.amount w + P.stamp r)) }
  | countMissing (w : ι) (r : R) (hStage : s.stage w = .counting r) (hFree : s.Free) (hCounter : s.counter = none) :
    Step P s { s with
      stage := Function.update s.stage w .away
      finished := s.finished + {r} }
  | countDown (w : ι) (r : R) (c : ℤ) (hStage : s.stage w = .counting r) (hFree : s.Free)
      (hCounter : s.counter = some c) (hMore : c - P.weight r ≠ 0) :
    Step P s { s with
      stage := Function.update s.stage w .away
      finished := s.finished + {r}
      counter := some (c - P.weight r) }
  | countZero (w : ι) (r : R) (c : ℤ) (todo : List ι) (hStage : s.stage w = .counting r) (hFree : s.Free)
      (hCounter : s.counter = some c) (hZero : c - P.weight r = 0) (hTodo : ∀ v, (s.buffer v).isSome → v ∈ todo) :
    Step P s { s with
      stage := Function.update s.stage w (.releasing todo)
      finished := s.finished + {r}
      counter := some 0
      zeros := s.zeros + 1 }
  | release (w v : ι) (todo : List ι) (hStage : s.stage w = .releasing (v :: todo)) :
    Step P s { s with
      stage := Function.update s.stage w (.releasing todo)
      buffer := Function.update s.buffer v none
      shipped := s.shipped ++ (s.buffer v).toList }
  | finish (w : ι) (hStage : s.stage w = .releasing []) :
    Step P s { s with
      stage := Function.update s.stage w .away
      counter := none }

end

end CsdWorker.Quota
