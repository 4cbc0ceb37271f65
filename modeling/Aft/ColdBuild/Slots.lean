import Aft.ColdBuild.Limiter

/-!
# The slots of the limiter

In every interleaving each slot is free, taken by a thread that did not install its lease yet, or
with a lease that did not return it (`slots_accounted`). A root is listed with at most one lease
(`Limiter.Registered`); a thread that found a root vacant holds the admission lock until it installs
the root's lease.
-/

namespace Aft.ColdBuild

open List Option Place SortedMap

variable {α : Type*}

theorem countP_set {l : List α} {index : ℕ} {a : α} (h : l[index]? = some a) (p : α → Bool) (b : α) :
    (l.set index b).countP p + (p a).toNat = l.countP p + (p b).toNat := by
  induction l generalizing index with
  | nil => simp at h
  | cons c l ih =>
    cases index with
    | zero =>
      obtain rfl : c = a := by simpa using h
      rw [set_cons_zero, countP_cons, countP_cons]
      cases p c <;> cases p b <;> simp
    | succ index =>
      have hr := ih (by simpa using h)
      rw [set_cons_succ, countP_cons, countP_cons]
      omega

theorem countP_middle (before after : List α) (a : α) (p : α → Bool) :
    (before ++ a :: after).countP p = (before ++ after).countP p + (p a).toNat := by
  rw [perm_middle.countP_eq, countP_cons]
  cases p a <;> simp

/-! ## Leases -/

variable {limiter' : Limiter}

namespace Limiter

variable {limiter : Limiter} {index : ℕ} {lease : Lease}

/-- The leases whose slot is not returned yet. -/
def unreturned (limiter : Limiter) : ℕ := limiter.leases.countP (·.stage ≠ .returned)

def Listed (limiter : Limiter) (root : String) (holder : RootHolder) : Prop :=
  ∃ lease, limiter.leases[holder.lease]? = some lease ∧ lease.root = some root ∧
    lease.stage = .listed ∧ lease.censusId = holder.censusId

/-- A root is mapped exactly to its listed lease, and only a listed lease has permits. -/
structure Registered (limiter : Limiter) : Prop where
  holders : ∀ root holder,
    limiter.holdersByRoot.find? root = some holder ↔ limiter.Listed root holder
  strong : ∀ (index : ℕ) (lease : Lease), limiter.leases[index]? = some lease → lease.stage ≠ .listed →
    lease.strong = 0

theorem getElem?_setLease (hl : limiter.leases[index]? = some lease) (lease' : Lease) (other : ℕ) :
    (limiter.setLease index lease').leases[other]? =
      if other = index then some lease' else limiter.leases[other]? := by
  have hlt : index < limiter.leases.length := (List.getElem?_eq_some_iff.1 hl).1
  change (limiter.leases.set index lease')[other]? = _
  rw [getElem?_set]
  by_cases ho : index = other
  · rw [if_pos ho, if_pos ho.symm, if_pos hlt]
  · rw [if_neg ho, if_neg (Ne.symm ho)]

variable {strong : ℕ}

/-- A lease that changes keeps the others listed, and is listed itself if it was and stays so. -/
theorem listed_setLease (hl : limiter.leases[index]? = some lease) {stage : LeaseStage}
    (hs : lease.stage = .listed ∨ stage ≠ .listed) (root : String) (holder : RootHolder) :
    (limiter.setLease index { lease with strong, stage }).Listed root holder ↔
      limiter.Listed root holder ∧ (holder.lease = index → stage = .listed) := by
  unfold Listed
  rw [getElem?_setLease hl]
  by_cases ho : holder.lease = index
  · rw [if_pos ho, ho, hl]
    simp only [some_inj, exists_eq_left']
    tauto
  · rw [if_neg ho]
    tauto

theorem getElem?_installPermitLocked (root : Option String) (other : ℕ) :
    (limiter.installPermitLocked root).leases[other]? =
      if other = limiter.leases.length then some ⟨limiter.nextCensusId, root, 1, .listed⟩
      else limiter.leases[other]? := by
  change (limiter.leases ++ [_])[other]? = _
  rcases Nat.lt_trichotomy other limiter.leases.length with hlt | rfl | hgt
  · rw [getElem?_append_left hlt, if_neg hlt.ne]
  · simp
  · rw [if_neg hgt.ne', getElem?_eq_none (by simp; omega), getElem?_eq_none hgt.le]

section

variable (h : limiter.Registered)
include h

theorem Registered.install {root : Option String}
    (hv : root.bind limiter.holdersByRoot.find? = none) :
    (limiter.installPermitLocked root).Registered := by
  have hl (name : String) (holder : RootHolder) :
      (limiter.installPermitLocked root).Listed name holder ↔ limiter.Listed name holder ∨
        holder.lease = limiter.leases.length ∧ root = some name ∧
          limiter.nextCensusId = holder.censusId := by
    unfold Listed
    rw [getElem?_installPermitLocked]
    by_cases hnew : holder.lease = limiter.leases.length
    · rw [hnew]
      simp
    · rw [if_neg hnew]
      exact ⟨.inl, fun h => h.resolve_right fun hr => hnew hr.1⟩
  refine ⟨fun name holder => ?_, fun other lease ho hs => ?_⟩
  · rw [hl, ← h.holders]
    cases root with
    | none => simp [installPermitLocked]
    | some root =>
      change (limiter.holdersByRoot.insert root _).find? name = _ ↔ _
      by_cases hn : name = root
      · have hno : limiter.holdersByRoot.find? root = none := hv
        rw [hn, find?_insert_self, hno]
        obtain ⟨censusId, index⟩ := holder
        simp only [some_inj, RootHolder.mk.injEq, reduceCtorEq, true_and, false_or]
        exact ⟨fun h => ⟨h.2.symm, h.1⟩, fun h => ⟨h.2, h.1.symm⟩⟩
      · rw [find?_insert_of_ne _ _ hn]
        simp [Ne.symm hn]
  · rw [getElem?_installPermitLocked] at ho
    split at ho
    · cases ho
      exact absurd rfl hs
    · exact h.strong other lease ho hs

section

variable (hl : limiter.leases[index]? = some lease)
include hl

theorem Registered.setStrong
    (hs : 0 < lease.strong) : (limiter.setLease index { lease with strong }).Registered := by
  have hli : lease.stage = .listed := by
    by_contra hst
    exact hs.ne' (h.strong index lease hl hst)
  refine ⟨fun root holder => ?_, fun other lease' ho hst => ?_⟩
  · rw [listed_setLease hl (.inl hli), ← h.holders]
    exact ⟨fun hf => ⟨hf, fun _ => hli⟩, And.left⟩
  · rw [getElem?_setLease hl] at ho
    split at ho
    · cases ho
      exact absurd hli hst
    · exact h.strong other lease' ho hst

theorem Registered.unlist (hs : lease.strong = 0) (hst : lease.stage = .listed) :
    (limiter.unlist index lease).Registered := by
  have hu : LeaseStage.unlisted ≠ .listed := nofun
  refine ⟨fun name holder => ?_, fun other lease' ho _ => ?_⟩
  · refine Iff.trans ?_ (listed_setLease hl (.inr hu) name holder).symm
    rw [← h.holders]
    have hown (hf : limiter.holdersByRoot.find? name = some holder) (hin : holder.lease = index) :
        lease.root = some name := by
      obtain ⟨lease', hl', hr, -⟩ := (h.holders name holder).1 hf
      rw [hin, hl, some_inj] at hl'
      rw [hl', hr]
    cases hr : lease.root with
    | none =>
      simp only [Limiter.unlist, hr]
      exact ⟨fun hf => ⟨hf, fun hin => by simpa [hr] using hown hf hin⟩, And.left⟩
    | some root =>
      have hh : limiter.holdersByRoot.find? root = some ⟨lease.censusId, index⟩ :=
        (h.holders root ⟨lease.censusId, index⟩).2 ⟨lease, hl, hr, hst, rfl⟩
      simp only [Limiter.unlist, hr, elim_some, hh, any_some, decide_true, if_true]
      by_cases hn : name = root
      · rw [hn, find?_erase_self, hh]
        refine ⟨nofun, fun ⟨hso, hin⟩ => ?_⟩
        rw [← some_inj.1 hso] at hin
        exact absurd (hin rfl) hu
      · rw [find?_erase_of_ne _ hn]
        refine ⟨fun hf => ⟨hf, fun hin => ?_⟩, And.left⟩
        exact absurd (mem_unique (hown hf hin) hr) hn
  · have ho := getElem?_setLease hl { lease with stage := .unlisted } other ▸ ho
    split at ho
    · cases ho
      exact hs
    · exact h.strong other lease' ho ‹_›

theorem Registered.returned (hs : lease.stage = .unlisted) :
    (limiter.setLease index { lease with stage := .returned }).Registered := by
  have hu : LeaseStage.returned ≠ .listed := nofun
  refine ⟨fun root holder => ?_, fun other lease' ho _ => ?_⟩
  · rw [listed_setLease hl (.inr hu), ← h.holders]
    refine ⟨fun hf => ⟨hf, fun hin => ?_⟩, And.left⟩
    obtain ⟨lease', hl', -, hli, -⟩ := (h.holders root holder).1 hf
    rw [hin, hl, some_inj] at hl'
    rw [← hl', hs] at hli
    cases hli
  · rw [getElem?_setLease hl] at ho
    split at ho
    · cases ho
      exact h.strong index lease hl (by simp [hs])
    · exact h.strong other lease' ho ‹_›

end

end

theorem unreturned_setStrong (hl : limiter.leases[index]? = some lease) (strong : ℕ) :
    (limiter.setLease index { lease with strong }).unreturned = limiter.unreturned :=
  Nat.add_right_cancel (countP_set hl _ { lease with strong })

theorem unreturned_installPermitLocked (root : Option String) :
    (limiter.installPermitLocked root).unreturned = limiter.unreturned + 1 := by
  simp [unreturned, installPermitLocked]

/-- Only turns and waiters differ. -/
structure Same (limiter limiter' : Limiter) : Prop where
  limit : limiter'.limit = limiter.limit
  available : limiter'.available = limiter.available
  locked : limiter'.locked = limiter.locked
  leases : limiter'.leases = limiter.leases
  holdersByRoot : limiter'.holdersByRoot = limiter.holdersByRoot

theorem same_settleTurn (turn : Option ℕ) : limiter.Same (turn.elim limiter limiter.settleTurn) := by
  cases turn with
  | none => exact ⟨rfl, rfl, rfl, rfl, rfl⟩
  | some turn =>
    rw [elim_some, settleTurn]
    split <;> exact ⟨rfl, rfl, rfl, rfl, rfl⟩

theorem same_withdrawTurn (turn : Option ℕ) :
    limiter.Same (turn.elim limiter limiter.withdrawTurn) := by
  cases turn <;> exact ⟨rfl, rfl, rfl, rfl, rfl⟩

theorem Same.unreturned (h : limiter.Same limiter') : limiter'.unreturned = limiter.unreturned := by
  rw [Limiter.unreturned, h.leases, Limiter.unreturned]

theorem Registered.of_eq (h : limiter.Registered) (hl : limiter'.leases = limiter.leases)
    (hh : limiter'.holdersByRoot = limiter.holdersByRoot) : limiter'.Registered := by
  refine ⟨fun root holder => ?_, fun index lease hle => h.strong index lease (hl ▸ hle)⟩
  rw [hh, Listed, hl]
  exact h.holders root holder

end Limiter

/-! ## Threads -/

variable {request : AdmissionRequest}

namespace Place

/-- The thread took a slot and did not install its lease yet. -/
def holdsSlot : Place → Bool
  | .taken _ => true
  | _ => false

/-- The thread holds the admission lock between two steps. -/
def critical : Place → Bool
  | .checking _ _ | .weighing _ _ => true
  | .loading request | .exchanging request _ | .taken request => request.isSome
  | _ => false

/-- The request that found its root vacant and may install a lease for it. -/
def claims : Place → Option AdmissionRequest
  | .weighing request _ => some request
  | .loading request | .exchanging request _ | .taken request => request
  | _ => none

/-- A slot count that a thread will exchange is not zero. -/
def Loaded : Place → Prop
  | .exchanging _ current => current ≠ 0
  | _ => True

/-- The root of a request that may install a lease has none. -/
def Vacant (place : Place) (limiter : Limiter) : Prop :=
  ∀ request, place.claims = some request → request.root.bind limiter.holdersByRoot.find? = none

theorem critical_of_claims {place : Place} (h : place.claims = some request) :
    place.critical = true := by
  cases place <;> simp_all [claims, critical]

end Place

namespace ThreadStep

variable {place place' : Place} {limiter limiter' : Limiter}

section

variable (h : ThreadStep place limiter place' limiter')
include h

theorem slots (hl : place.Loaded) :
    limiter'.limit = limiter.limit ∧
      limiter'.available + limiter'.unreturned + place'.holdsSlot.toNat =
        limiter.available + limiter.unreturned + place.holdsSlot.toNat := by
  cases h with
  | share _ _ hle | dropRefused hle =>
    exact ⟨rfl, congrArg (limiter.available + ·) (Limiter.unreturned_setStrong hle _)⟩
  | install =>
    have hu := limiter.unreturned_installPermitLocked none
    exact ⟨rfl, congrArg (limiter.available + ·) hu⟩
  | @installClassified _ request =>
    have hu := limiter.unreturned_installPermitLocked request.root
    exact ⟨rfl, congrArg (limiter.available + ·) hu⟩
  | exchange =>
    have hpos : limiter.available ≠ 0 := hl
    refine ⟨rfl, ?_⟩
    change limiter.available - 1 + limiter.unreturned + 1 = limiter.available + limiter.unreturned + 0
    omega
  | ranked => exact ⟨rfl, by split <;> rfl⟩
  | @accept _ lease turn hlo =>
    have hsa := limiter.same_settleTurn turn
    exact ⟨hsa.limit, by rw [hsa.available, hsa.unreturned]; rfl⟩
  | @revoke _ lease turn hlo =>
    have hsa := limiter.same_withdrawTurn turn
    exact ⟨hsa.limit, by rw [hsa.available, hsa.unreturned]; rfl⟩
  | _ => exact ⟨rfl, rfl⟩

theorem lock (hl : place.critical = true → limiter.locked = true) :
    limiter'.locked.toNat + place.critical.toNat = limiter.locked.toNat + place'.critical.toNat := by
  cases h with
  | callClassified request ticket hlo => simp [hlo, critical]
  | share | shareFailed | outranked | alternate | installClassified =>
    rw [hl rfl]
    rfl
  | ranked => split <;> rfl
  | @exhausted _ request hav =>
    cases request with
    | none => simp [critical]
    | some request =>
      rw [hl rfl]
      rfl
  | @accept _ lease turn hlo => rw [(limiter.same_settleTurn turn).locked]; rfl
  | @revoke _ lease turn hlo => rw [(limiter.same_withdrawTurn turn).locked]; rfl
  | _ => rfl

theorem registered (hr : limiter.Registered) (hv : place.Vacant limiter) : limiter'.Registered := by
  cases h with
  | share hro hh hl hs =>
    exact (hr.setStrong hl hs).of_eq rfl rfl
  | dropRefused hl hs => exact hr.setStrong hl hs
  | install => exact hr.install rfl
  | installClassified => exact (hr.install (hv _ rfl)).of_eq rfl rfl
  | @accept _ lease turn hlo =>
    have hsa := limiter.same_settleTurn turn
    exact hr.of_eq hsa.leases hsa.holdersByRoot
  | @revoke _ lease turn hlo =>
    have hsa := limiter.same_withdrawTurn turn
    exact hr.of_eq hsa.leases hsa.holdersByRoot
  | _ => exact hr.of_eq rfl rfl

theorem knows (hl : place.Loaded) (hv : place.Vacant limiter) :
    place'.Loaded ∧ place'.Vacant limiter' := by
  cases h with
  | ranked hr hra =>
    split <;> exact ⟨trivial, by rintro _ ⟨⟩; exact hr⟩
  | load hav => exact ⟨hav, hv⟩
  | weigh | turnOver | uncontested | exchange | retry => exact ⟨trivial, hv⟩
  | call | _ => exact ⟨trivial, nofun⟩

/-- Only a thread with the lock lists a root. -/
theorem holdersByRoot : limiter'.holdersByRoot = limiter.holdersByRoot ∨ place.critical = true := by
  cases h with
  | installClassified => exact .inr rfl
  | @accept _ lease turn hl => exact .inl (limiter.same_settleTurn turn).holdersByRoot
  | @revoke _ lease turn hl => exact .inl (limiter.same_withdrawTurn turn).holdersByRoot
  | _ => exact .inl rfl

end

end ThreadStep

/-! ## Runs -/

structure State.Sound (state : State) : Prop where
  slots : state.limiter.available + state.limiter.unreturned + state.threads.countP Place.holdsSlot =
    state.limiter.limit
  lock : state.threads.countP Place.critical = state.limiter.locked.toNat
  loaded : ∀ place ∈ state.threads, place.Loaded
  vacant : ∀ place ∈ state.threads, place.Vacant state.limiter
  registered : state.limiter.Registered

variable {state : State} {limiter : Limiter}

/-- A step of a permit, in which no thread moves and no root is listed. -/
theorem State.Sound.withLimiter (h : state.Sound) (hs : limiter.available + limiter.unreturned =
      state.limiter.available + state.limiter.unreturned) (hl : limiter.limit = state.limiter.limit)
    (hlo : limiter.locked = state.limiter.locked)
    (hv : ∀ root, state.limiter.holdersByRoot.find? root = none →
      limiter.holdersByRoot.find? root = none) (hr : limiter.Registered) :
    State.Sound { state with limiter } where
  slots := by
    rw [hs, hl]
    exact h.slots
  lock := hlo ▸ h.lock
  loaded := h.loaded
  vacant place hp request hc := by
    have hn := h.vacant place hp request hc
    cases hro : request.root with
    | none => rfl
    | some root =>
      rw [hro] at hn
      exact hv root hn
  registered := hr

theorem Step.soundThread {place place' : Place} {before after : List Place}
    (h : ThreadStep place limiter place' limiter')
    (hs : State.Sound ⟨limiter, before ++ place :: after⟩) :
    State.Sound ⟨limiter', before ++ place' :: after⟩ := by
  have hmem : place ∈ before ++ place :: after := mem_append_right _ mem_cons_self
  have hr : ∀ other ∈ before ++ after, other ∈ before ++ place :: after := fun other ho =>
    (mem_append.1 ho).elim (mem_append_left _) fun haf => mem_append_right _ (mem_cons_of_mem _ haf)
  have hsl := hs.slots
  have hl := hs.lock
  dsimp only at hsl hl
  rw [countP_middle] at hsl hl
  have hlo : place.critical = true → limiter.locked = true := by
    intro hc
    cases hv : limiter.locked with
    | true => rfl
    | false =>
      rw [hc, hv, Bool.toNat_true, Bool.toNat_false] at hl
      omega
  obtain ⟨hli, hs'⟩ := h.slots (hs.loaded place hmem)
  have hl' := h.lock hlo
  obtain ⟨hlo', hv'⟩ := h.knows (hs.loaded place hmem) (hs.vacant place hmem)
  have hot : ∀ other ∈ before ++ after, other.Loaded ∧ other.Vacant limiter' := by
    intro other ho
    refine ⟨hs.loaded other (hr other ho), fun request hcl => ?_⟩
    rcases h.holdersByRoot with hsa | hc
    · rw [hsa]
      exact hs.vacant other (hr other ho) request hcl
    · -- the thread has the lock, so that no other thread is in the locked part
      have hpos : 0 < (before ++ after).countP critical :=
        countP_pos_iff.2 ⟨other, ho, critical_of_claims hcl⟩
      rw [hc, hlo hc] at hl
      omega
  have hm : ∀ other ∈ before ++ place' :: after, other.Loaded ∧ other.Vacant limiter' := by
    intro other ho
    rcases mem_append.1 ho with hb | hmem'
    · exact hot other (mem_append_left _ hb)
    · rcases mem_cons.1 hmem' with rfl | haf
      · exact ⟨hlo', hv'⟩
      · exact hot other (mem_append_right _ haf)
  refine ⟨?_, ?_, fun other ho => (hm other ho).1,
    fun other ho => (hm other ho).2, h.registered hs.registered (hs.vacant place hmem)⟩
  · dsimp only
    rw [countP_middle]
    omega
  · dsimp only
    rw [countP_middle]
    omega

variable {state' : State}

theorem Step.sound (h : Step state state') (hs : state.Sound) : state'.Sound := by
  cases h with
  | spawn =>
    refine ⟨?_, ?_, ?_, ?_, hs.registered⟩
    · simpa [holdsSlot] using hs.slots
    · simpa [critical] using hs.lock
    · exact forall_mem_append.2 ⟨hs.loaded, forall_mem_singleton.2 trivial⟩
    · intro place hp
      rcases mem_append.1 hp with hold | hnew
      · exact hs.vacant place hold
      · rw [mem_singleton.1 hnew]
        exact nofun
  | thread before after ht => exact Step.soundThread ht hs
  | clone hl hst | drop hl hst =>
    exact hs.withLimiter (congrArg (state.limiter.available + ·)
      (Limiter.unreturned_setStrong hl _)) rfl rfl (fun _ => id)
      (hs.registered.setStrong hl hst)
  | @unlist _ index lease hl hst hsta hlo =>
    refine hs.withLimiter (congrArg (state.limiter.available + ·) ?_) rfl rfl
      (fun root hn => ?_) (hs.registered.unlist hl hst hsta)
    · have hc := countP_set hl (·.stage ≠ .returned) { lease with stage := .unlisted }
      simpa [hsta, Limiter.unreturned, Limiter.unlist, Limiter.setLease] using hc
    · unfold Limiter.unlist
      cases lease.root with
      | none => exact hn
      | some name =>
        dsimp only [elim_some]
        split
        · by_cases hr : root = name
          · rw [hr, find?_erase_self]
          · rw [find?_erase_of_ne _ hr, hn]
        · exact hn
  | @giveBack _ index lease hl hsta =>
    refine hs.withLimiter ?_ rfl rfl (fun _ => id) ((hs.registered.returned hl hsta).of_eq rfl rfl)
    have hc := countP_set hl (·.stage ≠ .returned) { lease with stage := .returned }
    have hc' : (state.limiter.setLease index { lease with stage := .returned }).unreturned + 1 =
        state.limiter.unreturned := by
      simpa [hsta, Limiter.unreturned, Limiter.setLease] using hc
    rw [← hc', Nat.add_assoc, Nat.add_comm 1]
    rfl

theorem State.sound_initial (limit : ℕ) : (State.initial limit).Sound where
  slots := rfl
  lock := rfl
  loaded _ h := absurd h not_mem_nil
  vacant _ h := absurd h not_mem_nil
  registered := ⟨fun _ _ => ⟨nofun, fun ⟨_, h, _⟩ => by simp [initial, Limiter.new] at h⟩,
    fun _ _ h => by simp [initial, Limiter.new] at h⟩

theorem Step.limit_eq (h : Step state state') (hs : state.Sound) :
    state'.limiter.limit = state.limiter.limit := by
  cases h with
  | thread before after ht =>
    exact (ht.slots (hs.loaded _ (mem_append_right _ mem_cons_self))).1
  | _ => rfl

theorem Steps.sound (h : Steps state state') (hs : state.Sound) :
    state'.Sound ∧ state'.limiter.limit = state.limiter.limit := by
  induction h with
  | refl => exact ⟨hs, rfl⟩
  | tail _ hst ih => exact ⟨hst.sound ih.1, (hst.limit_eq ih.1).trans ih.2⟩

def Limiter.live (limiter : Limiter) : ℕ := limiter.leases.countP (0 < ·.strong)

theorem Limiter.Registered.live_le (h : limiter.Registered) :
    limiter.live ≤ limiter.unreturned := by
  refine countP_mono_left fun lease hmem hl => ?_
  obtain ⟨index, hle⟩ := mem_iff_getElem?.1 hmem
  have hs : 0 < lease.strong := of_decide_eq_true hl
  refine decide_eq_true fun hr => hs.ne' (h.strong index lease hle ?_)
  rw [hr]
  exact nofun

variable {root : String}

/-- The live lease of a root is the one that the root is mapped to. -/
theorem Limiter.Registered.holder (h : limiter.Registered) {index : ℕ} {lease : Lease}
    (hl : limiter.leases[index]? = some lease) (hr : lease.root = some root) (hs : 0 < lease.strong) :
    limiter.holdersByRoot.find? root = some ⟨lease.censusId, index⟩ := by
  have hli : lease.stage = .listed := by
    by_contra hst
    exact hs.ne' (h.strong index lease hl hst)
  exact (h.holders root ⟨lease.censusId, index⟩).2 ⟨lease, hl, hr, hli, rfl⟩

theorem ThreadStep.shares {ticket : Option ℕ} {place' : Place}
    (h : ThreadStep (.checking request ticket) limiter place' limiter') {index : ℕ} {lease : Lease}
    (hr : request.root = some root)
    (hh : limiter.holdersByRoot.find? root = some ⟨lease.censusId, index⟩)
    (hl : limiter.leases[index]? = some lease) (hs : 0 < lease.strong) :
    place' = .deciding index none ∧ limiter'.available = limiter.available ∧
      limiter'.leases = limiter.leases.set index { lease with strong := lease.strong + 1 } := by
  have hf : request.root.bind limiter.holdersByRoot.find? = some ⟨lease.censusId, index⟩ := by
    rw [hr]
    exact hh
  cases h with
  | share hro hh' hl' =>
    obtain rfl := mem_unique hr hro
    obtain rfl := mem_unique hh hh'
    obtain rfl := mem_unique hl hl'
    exact ⟨rfl, rfl, rfl⟩
  | shareFailed hro hh' hl' hn =>
    obtain rfl := mem_unique hr hro
    obtain rfl := mem_unique hh hh'
    obtain rfl := mem_unique hl hl'
    exact absurd hn hs.ne'
  | outranked hro | ranked hro =>
    rw [hf] at hro
    cases hro

/-- In every interleaving, the free slots, those taken and not yet installed and the leases that did
not return theirs make up the limit, so that at most `limit` leases are live; a root is mapped to
its only live lease; and a request for the root of a live lease shares it and takes no slot. -/
theorem slots_accounted {limit : ℕ} {state : State} (h : Steps (.initial limit) state) :
    state.limiter.available + state.limiter.unreturned + state.threads.countP Place.holdsSlot =
        max limit 1 ∧
      state.limiter.live ≤ max limit 1 ∧
      (∀ root holder, state.limiter.holdersByRoot.find? root = some holder →
        ∃ lease, state.limiter.leases[holder.lease]? = some lease ∧ lease.root = some root) ∧
      (∀ index lease root, state.limiter.leases[index]? = some lease → lease.root = some root →
        0 < lease.strong →
          state.limiter.holdersByRoot.find? root = some ⟨lease.censusId, index⟩ ∧
          (∀ index' lease', state.limiter.leases[index']? = some lease' → lease'.root = some root →
            0 < lease'.strong → index' = index) ∧
          ∀ request ticket place' limiter', request.root = some root →
            ThreadStep (.checking request ticket) state.limiter place' limiter' →
              place' = .deciding index none ∧ limiter'.available = state.limiter.available ∧
                limiter'.leases =
                  state.limiter.leases.set index { lease with strong := lease.strong + 1 }) := by
  obtain ⟨hsound, hlimit⟩ := Steps.sound h (State.sound_initial limit)
  have hslots := hsound.slots.trans hlimit
  refine ⟨hslots, ?_, fun root holder hholder => ?_, fun index lease root hlease hroot hstrong => ?_⟩
  · have hlive := hsound.registered.live_le
    have hmax : state.limiter.available + state.limiter.unreturned +
      state.threads.countP Place.holdsSlot = max limit 1 := hslots
    omega
  · obtain ⟨lease, hlease, hroot, -⟩ := (hsound.registered.holders root holder).1 hholder
    exact ⟨lease, hlease, hroot⟩
  · have hholder := hsound.registered.holder hlease hroot hstrong
    refine ⟨hholder, fun index' lease' hlease' hroot' hstrong' => ?_, ?_⟩
    · have hholder' := hsound.registered.holder hlease' hroot' hstrong'
      rw [hholder, some_inj] at hholder'
      exact (congrArg RootHolder.lease hholder').symm
    · exact fun request ticket place' limiter' hrequest hstep =>
        hstep.shares hrequest hholder hlease hstrong

/-- A thread took one of two slots. -/
def oneTaken : State :=
  ⟨{ Limiter.new 2 with available := 1 }, [.taken none]⟩

theorem slots_accounted_oneTaken : Steps (.initial 2) oneTaken ∧
    oneTaken.limiter.available + oneTaken.limiter.unreturned +
      oneTaken.threads.countP Place.holdsSlot = 2 := by
  have hsteps : Steps (.initial 2) oneTaken :=
    (((Relation.ReflTransGen.single (.spawn _)).tail (.thread [] [] .call)).tail
      (.thread [] [] (.load (by decide)))).tail (.thread [] [] .exchange)
  exact ⟨hsteps, (slots_accounted hsteps).1⟩

end Aft.ColdBuild
