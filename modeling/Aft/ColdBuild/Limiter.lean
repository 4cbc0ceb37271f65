import Aft.Lib.SortedMap

/-!
# The cold-build limiter

The slots of a `ColdBuildLimiter`, its admission lock, and the steps of the threads that ask for
slots and of the permits that they got. The slot and waiter counters are atomics outside the lock;
a thread in `install_classified_permit` holds the lock over several atomic steps.
-/

namespace Aft.ColdBuild

inductive AdmissionClass where
  | inspectTriggered | maintenance | standing
deriving DecidableEq, Repr

structure AdmissionRequest where
  /-- The root whose builds share one permit. -/
  root : Option String
  admissionClass : AdmissionClass
deriving DecidableEq, Repr

/-- A lease is listed under the admission lock, unlisted by its drop, or its slot is returned. -/
inductive LeaseStage where
  | listed | unlisted | returned
deriving DecidableEq, Repr

/-- A `ColdBuildPermitLease` with its strong count. -/
structure Lease where
  censusId : ℕ
  root : Option String
  strong : ℕ
  stage : LeaseStage
deriving DecidableEq, Repr

/-- An entry of `holders_by_root`; `lease` is its weak reference. -/
structure RootHolder where
  censusId : ℕ
  lease : ℕ
deriving DecidableEq, Repr

/-- The other classes, in the order in which their waiters are looked at. -/
def AdmissionClass.others (admissionClass : AdmissionClass) : List AdmissionClass :=
  [.inspectTriggered, .maintenance, .standing].filter (· ≠ admissionClass)

def maxId : ℕ := 2 ^ 64 - 1

def saturatingSucc (n : ℕ) : ℕ := min (n + 1) maxId

structure Limiter where
  limit : ℕ
  available : ℕ
  waitingByClass : AdmissionClass → ℕ
  /-- A thread in `install_classified_permit` holds the admission lock. -/
  locked : Bool
  nextTurn : ℕ
  settledTurn : Option (ℕ × AdmissionClass)
  pendingTurns : SortedMap ℕ AdmissionClass
  nextCensusId : ℕ
  holdersByRoot : SortedMap String RootHolder
  queued : SortedMap ℕ AdmissionClass
  /-- All leases so far; a lease is named by its index. -/
  leases : List Lease

namespace Limiter

def new (limit : ℕ) : Limiter where
  limit := max limit 1
  available := max limit 1
  waitingByClass := fun _ => 0
  locked := false
  nextTurn := 1
  settledTurn := none
  pendingTurns := .empty
  nextCensusId := 1
  holdersByRoot := .empty
  queued := .empty
  leases := []

variable (limiter : Limiter)

/-- The class of the latest turn that was not refused. -/
def lastAdmittedClass : Option AdmissionClass :=
  match limiter.pendingTurns.entries.getLast?, limiter.settledTurn with
  | some pending, some settled => some (if settled.1 < pending.1 then pending.2 else settled.2)
  | pending, settled => (pending.or settled).map Prod.snd

def olderSameClass (admissionClass : AdmissionClass) (ticket : ℕ) : ℕ :=
  limiter.queued.entries.countP fun entry => entry.1 < ticket ∧ entry.2 = admissionClass

def installPermitLocked (root : Option String) : Limiter :=
  { limiter with
    nextCensusId := saturatingSucc limiter.nextCensusId
    leases := limiter.leases ++ [⟨limiter.nextCensusId, root, 1, .listed⟩]
    holdersByRoot := root.elim limiter.holdersByRoot fun root =>
      limiter.holdersByRoot.insert root ⟨limiter.nextCensusId, limiter.leases.length⟩ }

def reserveTurn (admissionClass : AdmissionClass) : Limiter :=
  { limiter with
    nextTurn := saturatingSucc limiter.nextTurn
    pendingTurns := limiter.pendingTurns.insert limiter.nextTurn admissionClass }

def withdrawTurn (turn : ℕ) : Limiter :=
  { limiter with pendingTurns := limiter.pendingTurns.erase turn }

def settleTurn (turn : ℕ) : Limiter :=
  match limiter.pendingTurns.find? turn with
  | none => limiter
  | some admissionClass =>
    { limiter.withdrawTurn turn with
      settledTurn := if limiter.settledTurn.all (·.1 < turn) then some (turn, admissionClass)
        else limiter.settledTurn }

def setLease (index : ℕ) (lease : Lease) : Limiter :=
  { limiter with leases := limiter.leases.set index lease }

/-- The locked part of a lease's drop. -/
def unlist (index : ℕ) (lease : Lease) : Limiter :=
  { limiter.setLease index { lease with stage := .unlisted } with
    holdersByRoot := lease.root.elim limiter.holdersByRoot fun root =>
      if (limiter.holdersByRoot.find? root).any (·.censusId = lease.censusId) then
        limiter.holdersByRoot.erase root else limiter.holdersByRoot }

/-- Announce a waiter, or take the announcement back. -/
def setWaiting (admissionClass : AdmissionClass) (count : ℕ) : Limiter :=
  { limiter with waitingByClass := Function.update limiter.waitingByClass admissionClass count }

def enqueue (admissionClass : AdmissionClass) : Limiter :=
  { limiter with
    nextCensusId := saturatingSucc limiter.nextCensusId
    queued := limiter.queued.insert limiter.nextCensusId admissionClass }

end Limiter

/-! ## Threads -/

/-- Where a thread is. The places `checking`, `weighing`, `loading (some _)`, `exchanging (some _)`
and `taken (some _)` are in `install_classified_permit`, with the lock held; `none` stands for the
unclassified `try_acquire`. -/
inductive Place where
  | idle
  | announced (admissionClass : AdmissionClass)
  | leaving (ticket : ℕ)
  | checking (request : AdmissionRequest) (ticket : Option ℕ)
  /-- The last slot: the waiters of the other classes are looked at one by one. -/
  | weighing (request : AdmissionRequest) (others : List AdmissionClass)
  | loading (request : Option AdmissionRequest)
  | exchanging (request : Option AdmissionRequest) (current : ℕ)
  | taken (request : Option AdmissionRequest)
  /-- The admission predicate runs, with a permit and the class turn of a new slot. -/
  | deciding (lease : ℕ) (turn : Option ℕ)
  /-- The predicate refused and the turn is withdrawn. -/
  | refused (lease : ℕ)
deriving DecidableEq, Repr

inductive ThreadStep : Place → Limiter → Place → Limiter → Prop
  | announce {limiter} (admissionClass : AdmissionClass) :
      ThreadStep .idle limiter (.announced admissionClass)
        (limiter.setWaiting admissionClass (limiter.waitingByClass admissionClass + 1))
  | enqueue {limiter admissionClass} (hlock : limiter.locked = false) :
      ThreadStep (.announced admissionClass) limiter .idle (limiter.enqueue admissionClass)
  | leave {limiter} (admissionClass : AdmissionClass) (ticket : ℕ) :
      ThreadStep .idle limiter (.leaving ticket)
        (limiter.setWaiting admissionClass (limiter.waitingByClass admissionClass - 1))
  | dequeue {limiter ticket} (hlock : limiter.locked = false) :
      ThreadStep (.leaving ticket) limiter .idle
        { limiter with queued := limiter.queued.erase ticket }
  /-- Call `try_acquire`. -/
  | call {limiter} : ThreadStep .idle limiter (.loading none) limiter
  /-- Call `try_acquire_classified`, and take the lock. -/
  | callClassified {limiter} (request : AdmissionRequest) (ticket : Option ℕ)
      (hlock : limiter.locked = false) :
      ThreadStep .idle limiter (.checking request ticket) { limiter with locked := true }
  /-- Share the permit of the root. -/
  | share {limiter request ticket root holder lease} (hroot : request.root = some root)
      (hholder : limiter.holdersByRoot.find? root = some holder)
      (hlease : limiter.leases[holder.lease]? = some lease) (hstrong : 0 < lease.strong) :
      ThreadStep (.checking request ticket) limiter (.deciding holder.lease none)
        { limiter.setLease holder.lease { lease with strong := lease.strong + 1 } with locked := false }
  /-- The last sharer of the root's permit is dropping it. -/
  | shareFailed {limiter request ticket root holder lease} (hroot : request.root = some root)
      (hholder : limiter.holdersByRoot.find? root = some holder)
      (hlease : limiter.leases[holder.lease]? = some lease) (hstrong : lease.strong = 0) :
      ThreadStep (.checking request ticket) limiter .idle { limiter with locked := false }
  /-- As many waiters of the class are queued before the ticket as there are slots. -/
  | outranked {limiter request ticket}
      (hroot : request.root.bind limiter.holdersByRoot.find? = none)
      (hrank : ticket.any (fun ticket =>
        limiter.available ≤ limiter.olderSameClass request.admissionClass ticket) = true) :
      ThreadStep (.checking request ticket) limiter .idle { limiter with locked := false }
  | ranked {limiter request ticket} (hroot : request.root.bind limiter.holdersByRoot.find? = none)
      (hrank : ticket.any (fun ticket =>
        limiter.available ≤ limiter.olderSameClass request.admissionClass ticket) = false) :
      ThreadStep (.checking request ticket) limiter
        (if limiter.available ≤ 1 then .weighing request request.admissionClass.others
          else .loading (some request)) limiter
  | weigh {limiter request other others} (hwaiting : limiter.waitingByClass other = 0) :
      ThreadStep (.weighing request (other :: others)) limiter (.weighing request others) limiter
  /-- The last slot is left to a waiter of another class. -/
  | alternate {limiter request other others} (hwaiting : 0 < limiter.waitingByClass other)
      (hturn : limiter.lastAdmittedClass = some request.admissionClass) :
      ThreadStep (.weighing request (other :: others)) limiter .idle { limiter with locked := false }
  | turnOver {limiter request other others} (hwaiting : 0 < limiter.waitingByClass other)
      (hturn : limiter.lastAdmittedClass ≠ some request.admissionClass) :
      ThreadStep (.weighing request (other :: others)) limiter (.loading (some request)) limiter
  | uncontested {limiter request} :
      ThreadStep (.weighing request []) limiter (.loading (some request)) limiter
  | load {limiter request} (havailable : limiter.available ≠ 0) :
      ThreadStep (.loading request) limiter (.exchanging request limiter.available) limiter
  | exhausted {limiter request} (havailable : limiter.available = 0) :
      ThreadStep (.loading request) limiter .idle
        { limiter with locked := limiter.locked && request.isNone }
  | exchange {limiter request} :
      ThreadStep (.exchanging request limiter.available) limiter (.taken request)
        { limiter with available := limiter.available - 1 }
  | retry {limiter request current} (havailable : limiter.available ≠ current) :
      ThreadStep (.exchanging request current) limiter (.loading request) limiter
  | install {limiter} (hlock : limiter.locked = false) :
      ThreadStep (.taken none) limiter (.deciding limiter.leases.length none)
        (limiter.installPermitLocked none)
  | installClassified {limiter request} :
      ThreadStep (.taken (some request)) limiter
        (.deciding limiter.leases.length (some limiter.nextTurn))
        { (limiter.installPermitLocked request.root).reserveTurn request.admissionClass with
          locked := false }
  /-- The predicate accepts; the caller has the permit. -/
  | accept {limiter lease turn} (hlock : turn.isSome → limiter.locked = false) :
      ThreadStep (.deciding lease turn) limiter .idle (turn.elim limiter limiter.settleTurn)
  /-- The predicate refuses or panics; the turn is withdrawn before the permit is dropped. -/
  | revoke {limiter lease turn} (hlock : turn.isSome → limiter.locked = false) :
      ThreadStep (.deciding lease turn) limiter (.refused lease) (turn.elim limiter limiter.withdrawTurn)
  | dropRefused {limiter index lease} (hlease : limiter.leases[index]? = some lease)
      (hstrong : 0 < lease.strong) :
      ThreadStep (.refused index) limiter .idle
        (limiter.setLease index { lease with strong := lease.strong - 1 })

/-! ## The system -/

structure State where
  limiter : Limiter
  threads : List Place

def State.initial (limit : ℕ) : State := ⟨.new limit, []⟩

inductive Step : State → State → Prop
  | spawn (state : State) : Step state { state with threads := state.threads ++ [.idle] }
  | thread {limiter limiter' place place'} (before after : List Place)
      (h : ThreadStep place limiter place' limiter') :
      Step ⟨limiter, before ++ place :: after⟩ ⟨limiter', before ++ place' :: after⟩
  /-- A permit is cloned, or a weak permit upgraded. -/
  | clone {state index lease} (hlease : state.limiter.leases[index]? = some lease)
      (hstrong : 0 < lease.strong) :
      Step state { state with
        limiter := state.limiter.setLease index { lease with strong := lease.strong + 1 } }
  /-- A permit is dropped. -/
  | drop {state index lease} (hlease : state.limiter.leases[index]? = some lease)
      (hstrong : 0 < lease.strong) :
      Step state { state with
        limiter := state.limiter.setLease index { lease with strong := lease.strong - 1 } }
  /-- The drop of the last permit takes the lock and removes the lease from the tables. -/
  | unlist {state index lease} (hlease : state.limiter.leases[index]? = some lease)
      (hstrong : lease.strong = 0) (hstage : lease.stage = .listed)
      (hlock : state.limiter.locked = false) :
      Step state { state with limiter := state.limiter.unlist index lease }
  /-- The drop of the last permit returns the slot. -/
  | giveBack {state index lease} (hlease : state.limiter.leases[index]? = some lease)
      (hstage : lease.stage = .unlisted) :
      Step state { state with
        limiter := { state.limiter.setLease index { lease with stage := .returned } with
          available := state.limiter.available + 1 } }

/-- A run is any interleaving of steps. -/
abbrev Steps : State → State → Prop := Relation.ReflTransGen Step

end Aft.ColdBuild
