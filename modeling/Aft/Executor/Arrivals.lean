import Aft.Executor.Actor

/-!
# The queues of a class as one list

The order of a class and its queues are edited apart, by positions. Together they hold one list of
jobs with their lanes: the `k`-th entry of a lane in the order belongs to the `k`-th job of the
lane. Every operation on the queues is the plain one on that list.
-/

namespace Aft.Executor

open List

/-- A queued job and its lane. -/
abbrev Arrival := Lane × QueuedJob

namespace ClassQueues

/-- The queues that hold a list of arrivals. -/
def ofArrivals (arrivals : List Arrival) : ClassQueues where
  order := arrivals.map Prod.fst
  queue lane := (arrivals.filter (·.1 = lane)).map Prod.snd

inductive Operation where
  | push (lane : Lane) (job : QueuedJob)
  | pushFront (lane : Lane) (job : QueuedJob)
  | popFront (lane : Lane)
  | removeFirstBind
  | removeCancellable (token : Token)
  | removeDuplicates
  | cancelProviders
  | cancel
  | fail

/-- The queues after an operation. The last three are methods of the queues in the source and of an
actor here. -/
def perform (queues : ClassQueues) : Operation → ClassQueues
  | .push lane job => queues.pushJob lane job
  | .pushFront lane job => queues.pushFrontJob lane job
  | .popFront lane => (queues.popFrontJob lane).2
  | .removeFirstBind => queues.removeFirstBindJob.2
  | .removeCancellable token => (queues.removeCancellable token).2
  | .removeDuplicates => queues.removeDuplicateMaintenanceJobs.2
  | .cancelProviders =>
    { ActorState.new 0 with interactive := queues }.cancelQueuedProviderJobs.1.interactive
  | .cancel => { ActorState.new 0 with maintenance := queues }.cancelQueuedJobs.1.maintenance
  | .fail => { ActorState.new 0 with interactive := queues }.failQueuedJobs.1.interactive

/-! ## Operations on the list -/

/-- The arrivals without those whose coalesce key an earlier one has. -/
def firstOfEachKey (seen : List MaintenanceCoalesceKey) : List Arrival → List Arrival
  | [] => []
  | arrival :: rest =>
    match arrival.2.maintenanceCoalesceKey with
    | none => arrival :: firstOfEachKey seen rest
    | some key =>
      if key ∈ seen then firstOfEachKey seen rest
      else arrival :: firstOfEachKey (key :: seen) rest

def performList (arrivals : List Arrival) : Operation → List Arrival
  | .push lane job => arrivals ++ [(lane, job)]
  | .pushFront lane job => (lane, job) :: arrivals
  | .popFront lane => arrivals.eraseP (·.1 = lane)
  | .removeFirstBind =>
    arrivals.eraseP fun arrival => arrival.1 = .mutating ∧ isConfigureRequest arrival.2.requestId
  | .removeCancellable token => arrivals.eraseP (·.2.cancellation = some token)
  | .removeDuplicates => firstOfEachKey [] arrivals
  | .cancelProviders => arrivals.filter (·.1 ≠ .providerMetadata)
  | .cancel | .fail => []

def DistinctTokens (arrivals : List Arrival) : Prop :=
  (arrivals.filterMap (·.2.cancellation)).Nodup

variable {arrivals next : List Arrival} {lane : Lane} {p : QueuedJob → Bool}

/-! ## One operation -/

/-- An edit of one lane's queue and of the order, where the other lanes keep their arrivals. -/
theorem setQueue_ofArrivals {order : List Lane} {jobs : List QueuedJob}
    (ho : order = next.map Prod.fst) (hj : jobs = (ofArrivals next).queue lane)
    (h : ∀ other ≠ lane, next.filter (·.1 = other) = arrivals.filter (·.1 = other)) :
    { (ofArrivals arrivals).setQueue lane jobs with order := order } = ofArrivals next := by
  subst ho hj
  refine congrArg (ClassQueues.mk _) (funext fun other => ?_)
  by_cases hl : other = lane
  · subst hl
    exact Function.update_self ..
  · exact (Function.update_of_ne hl ..).trans (congrArg (map _) (h other hl).symm)

/-! ### Removal of one job -/

section Removal

variable {q : Arrival → Bool} {position : ℕ}

/-- The arrivals with `q` are those of a lane whose job has `p`. -/
def Picks (arrivals : List Arrival) (q : Arrival → Bool) (lane : Lane) (p : QueuedJob → Bool) :
    Prop :=
  ∀ arrival ∈ arrivals, q arrival ↔ arrival.1 = lane ∧ p arrival.2

theorem Picks.filter_eraseP {other : Lane} (h : Picks arrivals q lane p) (ho : other ≠ lane) :
    (arrivals.eraseP q).filter (·.1 = other) = arrivals.filter (·.1 = other) := by
  induction arrivals with
  | nil => rfl
  | cons arrival rest ih => grind [Picks]

section

variable (hq : Picks arrivals q lane p)
  (h : ((ofArrivals arrivals).queue lane).findIdx? p = some position)
include hq h

theorem Picks.erase :
    eraseOccurrence lane position (arrivals.map Prod.fst) = (arrivals.eraseP q).map Prod.fst ∧
      ((ofArrivals arrivals).queue lane).eraseIdx position =
        (ofArrivals (arrivals.eraseP q)).queue lane := by
  induction arrivals generalizing position with
  | nil => simp [ofArrivals] at h
  | cons arrival rest ih =>
    obtain ⟨ha, hr⟩ := forall_mem_cons.1 hq
    by_cases hl : arrival.1 = lane
    · by_cases hp : p arrival.2
      · obtain rfl : 0 = position := by simpa [ofArrivals, hl, hp, findIdx?_cons] using h
        simp [ofArrivals, eraseOccurrence, ha.2 ⟨hl, hp⟩, hl]
      · obtain ⟨k, hk, rfl⟩ : ∃ k, ((ofArrivals rest).queue lane).findIdx? p = some k ∧
            k + 1 = position := by
          simpa [ofArrivals, hl, hp, findIdx?_cons] using h
        have hn : ¬ q arrival := fun h => hp (ha.1 h).2
        simpa [ofArrivals, eraseOccurrence, hl, hn] using ih hr hk
    · have hn : ¬ q arrival := fun h => hl (ha.1 h).1
      simpa [ofArrivals, eraseOccurrence, hl, hn] using ih hr (by simpa [ofArrivals, hl] using h)

theorem Picks.removeQueued :
    ((ofArrivals arrivals).removeQueued lane position).2 = ofArrivals (arrivals.eraseP q) :=
  setQueue_ofArrivals (hq.erase h).1 (hq.erase h).2 fun _ => hq.filter_eraseP

end

theorem mem_queue_ofArrivals {job : QueuedJob} :
    job ∈ (ofArrivals arrivals).queue lane ↔ (lane, job) ∈ arrivals := by
  simp [ofArrivals]

theorem Picks.eraseP_of_none (hq : Picks arrivals q lane p)
    (h : ((ofArrivals arrivals).queue lane).findIdx? p = none) : arrivals.eraseP q = arrivals := by
  refine eraseP_of_forall_not fun arrival ha hat => ?_
  obtain ⟨rfl, hp⟩ := (hq arrival ha).1 hat
  have hj := findIdx?_eq_none_iff.1 h arrival.2 (mem_queue_ofArrivals.2 ha)
  exact absurd hp (by simp [hj])

theorem eraseOccurrence_zero (order : List Lane) :
    eraseOccurrence lane 0 order = order.erase lane := by
  induction order with
  | nil => rfl
  | cons entry rest ih => simp [eraseOccurrence, erase_cons, ih]

theorem popFrontJob_ofArrivals :
    ((ofArrivals arrivals).popFrontJob lane).2 = ofArrivals (arrivals.eraseP (·.1 = lane)) := by
  have hq : Picks arrivals (·.1 = lane) lane fun _ => true := fun arrival _ => by simp
  have hm : lane ∈ (ofArrivals arrivals).order ↔ (ofArrivals arrivals).queue lane ≠ [] := by
    simp [ofArrivals]
  cases hl : (ofArrivals arrivals).queue lane with
  | nil => rw [popFrontJob, if_neg (by simp [hm, hl]), hq.eraseP_of_none (by simp [hl])]
  | cons job rest =>
    rw [popFrontJob, if_pos (by simp [hm, hl]), ← hq.removeQueued (by rw [hl]; rfl),
      ClassQueues.removeQueued, hl, eraseOccurrence_zero]
    rfl

theorem removeFirstBindJob_ofArrivals :
    (ofArrivals arrivals).removeFirstBindJob.2 =
      ofArrivals (performList arrivals .removeFirstBind) := by
  have hq : Picks arrivals
      (fun arrival => arrival.1 = .mutating ∧ isConfigureRequest arrival.2.requestId) .mutating
      (isConfigureRequest ·.requestId) := fun arrival _ => by simp
  unfold removeFirstBindJob
  split
  next h => rw [performList, hq.eraseP_of_none h]
  next h => exact hq.removeQueued h

theorem DistinctTokens.unique {token : Token} {first second : Arrival}
    (h : DistinctTokens arrivals) (hf : first ∈ arrivals) (hs : second ∈ arrivals)
    (hft : first.2.cancellation = some token) (hst : second.2.cancellation = some token) :
    first = second := by
  induction arrivals with
  | nil => cases hf
  | cons arrival rest ih => grind [DistinctTokens]

theorem removeCancellable_ofArrivals (token : Token) (h : DistinctTokens arrivals) :
    ((ofArrivals arrivals).removeCancellable token).2 =
      ofArrivals (arrivals.eraseP (·.2.cancellation = some token)) := by
  unfold removeCancellable
  split
  next hn =>
    rw [eraseP_of_forall_not]
    intro arrival ha ht
    have hl := findSome?_eq_none_iff.1 hn arrival.1 (mem_allLanes _)
    have hj := findIdx?_eq_none_iff.1 (Option.map_eq_none_iff.1 hl) arrival.2
      (mem_queue_ofArrivals.2 ha)
    exact absurd ht (by simp [hj])
  next lane position hs =>
    obtain ⟨other, -, hf⟩ := exists_of_findSome?_eq_some hs
    obtain ⟨k, hk, he⟩ := Option.map_eq_some_iff.1 hf
    cases he
    obtain ⟨hlt, hjob, -⟩ := findIdx?_eq_some_iff_getElem.1 hk
    have hm := mem_queue_ofArrivals.1 (getElem_mem hlt)
    refine Picks.removeQueued (fun arrival ha => ?_) hk
    have hu := fun ht => h.unique ha hm ht (by simpa using hjob)
    grind

end Removal

/-! ### Removal of duplicates -/

/-- How many jobs of a lane arrived. -/
def placed (arrivals : List Arrival) (lane : Lane) : ℕ := (arrivals.filter (·.1 = lane)).length

variable (before : List Arrival) (arrival : Arrival) (after : List Arrival)

theorem placed_append :
    placed (before ++ [arrival]) =
      Function.update (placed before) arrival.1 (placed before arrival.1 + 1) := by
  funext lane
  by_cases hl : lane = arrival.1
  · subst hl
    simp [placed]
  · simp [placed, hl, Ne.symm hl]

theorem queue_placed :
    ((ofArrivals (before ++ arrival :: after)).queue arrival.1)[placed before arrival.1]? =
      some arrival.2 := by
  simp [ofArrivals, placed]

theorem removeAt_ofArrivals :
    ((ofArrivals (before ++ arrival :: after)).removeAt before.length arrival.1
      (placed before arrival.1)).2 = ofArrivals (before ++ after) := by
  refine setQueue_ofArrivals ?_ ?_ fun other ho => ?_
  · simp [ofArrivals, eraseIdx_append]
  · simp [ofArrivals, placed, eraseIdx_append]
  · simp [ho.symm]

theorem removePositions_append (first second : List (ℕ × Lane × ℕ)) (queues : ClassQueues) :
    (removePositions (first ++ second) queues).2 =
      (removePositions second (removePositions first queues).2).2 := by
  induction first generalizing queues with
  | nil => rfl
  | cons position rest ih => exact ih _

/-- The positions are removed from the last one: those that remain stay right. -/
theorem removePositions_duplicates (seen : List MaintenanceCoalesceKey) (rest : List Arrival) :
    (removePositions ((ofArrivals (before ++ rest)).duplicatePositions (rest.map Prod.fst)
      before.length (placed before) seen).reverse (ofArrivals (before ++ rest))).2 =
      ofArrivals (before ++ firstOfEachKey seen rest) := by
  induction rest generalizing before seen with
  | nil => rfl
  | cons arrival rest ih =>
    have ih := fun seen => ih (before ++ [arrival]) seen
    simp only [append_assoc, singleton_append, length_append, length_singleton, placed_append] at ih
    rw [map_cons, duplicatePositions, queue_placed, Option.bind_some, firstOfEachKey]
    cases hk : arrival.2.maintenanceCoalesceKey with
    | none => exact ih seen
    | some key =>
      by_cases hs : key ∈ seen
      · simp only [hs, if_true, reverse_cons, removePositions_append, ih]
        exact removeAt_ofArrivals ..
      · simpa only [hs, if_false] using ih (key :: seen)

/-- Every operation on the queues is the one on the list of arrivals. -/
theorem perform_ofArrivals (op : Operation)
    (h : ∀ token, op = .removeCancellable token → DistinctTokens arrivals) :
    (ofArrivals arrivals).perform op = ofArrivals (performList arrivals op) := by
  cases op with
  | push lane job =>
    refine setQueue_ofArrivals ?_ ?_ fun other ho => ?_
    · simp [ofArrivals, performList]
    · simp [ofArrivals, performList]
    · simp [performList, ho.symm]
  | pushFront lane job =>
    refine setQueue_ofArrivals rfl ?_ fun other ho => ?_
    · simp [ofArrivals, performList]
    · simp [performList, ho.symm]
  | popFront lane => exact popFrontJob_ofArrivals
  | removeFirstBind => exact removeFirstBindJob_ofArrivals
  | removeCancellable token => exact removeCancellable_ofArrivals token (h token rfl)
  | removeDuplicates => exact removePositions_duplicates [] [] arrivals
  | cancelProviders =>
    refine setQueue_ofArrivals filter_map ?_ fun other ho => ?_
    · simp [ofArrivals, performList]
    · rw [performList, filter_filter]
      refine filter_congr fun arrival _ => ?_
      grind
  | cancel => rfl
  | fail => rfl

/-- Operations on empty queues leave what those on lists leave, with tokens distinct where one is
looked for. -/
theorem foldl_perform_ofArrivals (ops : List Operation)
    (h : ∀ before token, before ++ [.removeCancellable token] <+: ops →
      DistinctTokens (before.foldl performList [])) :
    ops.foldl perform new = ofArrivals (ops.foldl performList []) := by
  induction ops using List.reverseRecOn with
  | nil => rfl
  | append_singleton before op ih =>
    rw [foldl_concat, foldl_concat, ih fun earlier token he => h earlier token
      (he.trans (prefix_append ..))]
    refine perform_ofArrivals op fun token ht => h before token ?_
    rw [ht]

/-- A read is queued and cancelled by its token. -/
theorem foldl_perform_ofArrivals_cancelled :
    let job : QueuedJob := ⟨0, 0, "r", "read", 0, some 7, none, false, false, none, 0, none⟩
    let ops : List Operation := [.push .pureRead job, .removeCancellable 7]
    ops.foldl perform new = ofArrivals [] := by
  intro job ops
  refine foldl_perform_ofArrivals ops fun before token h => ?_
  obtain ⟨after, h⟩ := h
  rcases before with _ | ⟨first, _ | ⟨second, before⟩⟩
  · exact nodup_nil
  · obtain rfl := (List.cons.inj h).1
    exact nodup_singleton 7
  · simp [ops] at h

end ClassQueues

end Aft.Executor
