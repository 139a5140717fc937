import HashComp.Library.Runs
import HashComp.Reads.Model
import Mathlib.Algebra.BigOperators.Group.Finset.Piecewise
import Mathlib.Algebra.BigOperators.Group.List.Basic
import Mathlib.Algebra.GroupWithZero.Nat
import Mathlib.Data.List.Perm.Basic

namespace HashComp.Reads

open HashComp.Runs

variable {K : Type} {f : Format} {d : Device K} {numContexts : Nat} {x y : System K}
  {c b i q n address : Nat} {io : AsyncIOContext K} {request : Request K} {flight : Read K}
  {result submitted : Status} {m : Move K} {continued : Continued}

section Counts

theorem countP_eraseIdx {α : Type} {l : List α} {a : α} (p : α → Bool) (h : l[i]? = some a) :
    l.countP p = (l.eraseIdx i).countP p + if p a then 1 else 0 := by
  obtain ⟨hlt, rfl⟩ := List.getElem?_eq_some_iff.mp h
  rw [← (List.getElem_cons_eraseIdx_perm hlt).countP_eq p, List.countP_cons]

theorem ite_lt_succ (i n : Nat) :
    (if i < n + 1 then 1 else 0) = (if i < n then 1 else 0) + if n = i then 1 else 0 := by
  split <;> split <;> split <;> omega

def AsyncIOContext.hasId (c i : Nat) (io : AsyncIOContext K) : Bool :=
  decide (io.owner = c ∧ io.ioId = i)

def Request.hasNumber (c q : Nat) (request : Request K) : Bool :=
  decide (request.context = c ∧ request.number = q)

def AsyncIOContext.serves (c q : Nat) (io : AsyncIOContext K) : Bool :=
  io.request.hasNumber c q

def System.flying (x : System K) (p : AsyncIOContext K → Bool) : Nat :=
  x.inFlight.countP fun read => p read.io

def System.lost (x : System K) (p : AsyncIOContext K → Bool) : Nat :=
  x.results.countP fun entry => p entry.1 && decide (entry.2 ≠ .ok)

def System.calls (x : System K) (c q : Nat) : Nat :=
  x.calledBack.countP fun entry => entry.1.hasNumber c q

def ExecutionContext.queued (c q : Nat) (ctx : ExecutionContext K) : Nat :=
  ctx.ioResponses.countP (AsyncIOContext.serves c q) +
    ctx.retryRequests.countP (Request.hasNumber c q)

def System.queued (numContexts : Nat) (x : System K) (c q : Nat) : Nat :=
  ∑ b ∈ Finset.range numContexts, (x.contexts b).queued c q

theorem sum_update (g : ExecutionContext K → Nat) {ctx : ExecutionContext K} (hb : b < numContexts)
    (hcontexts : y.contexts = Function.update x.contexts b ctx) :
    (∑ c ∈ Finset.range numContexts, g (y.contexts c)) + g (x.contexts b) =
      (∑ c ∈ Finset.range numContexts, g (x.contexts c)) + g ctx := by
  have hmem : b ∈ Finset.range numContexts := Finset.mem_range.mpr hb
  have hother : ∑ c ∈ (Finset.range numContexts).erase b, g (y.contexts c) =
      ∑ c ∈ (Finset.range numContexts).erase b, g (x.contexts c) :=
    Finset.sum_congr rfl fun c hc => by
      rw [hcontexts, Function.update_of_ne (Finset.ne_of_mem_erase hc)]
  rw [← Finset.add_sum_erase _ _ hmem, ← Finset.add_sum_erase _ (fun c => g (x.contexts c)) hmem,
    hother, hcontexts, Function.update_self]
  omega

theorem queued_update {ctx : ExecutionContext K} (hb : b < numContexts)
    (hcontexts : y.contexts = Function.update x.contexts b ctx) (c q : Nat) :
    y.queued numContexts c q + (x.contexts b).queued c q =
      x.queued numContexts c q + ctx.queued c q :=
  sum_update (ExecutionContext.queued c q) hb hcontexts

inductive Hand (K : Type) where
  | nothing
  | io (io : AsyncIOContext K)
  | request (request : Request K)

def Hand.ios (c i : Nat) : Hand K → Nat
  | .io io => if io.hasId c i then 1 else 0
  | _ => 0

def Hand.requests (c q : Nat) : Hand K → Nat
  | .io io => if io.serves c q then 1 else 0
  | .request request => if request.hasNumber c q then 1 else 0
  | .nothing => 0

structure Accounts (d : Device K) (numContexts : Nat) (hand : Hand K) (x : System K) : Prop where
  onDisk : ∀ read ∈ x.inFlight, (d.record read.io.address).isSome ∧ read.io.owner < numContexts
  owners : ∀ c, ∀ io ∈ (x.contexts c).ioResponses, io.owner = c
  idle : ∀ c, numContexts ≤ c → x.contexts c = ⟨[], [], []⟩
  issued : ∀ c i, hand.ios c i + x.flying (AsyncIOContext.hasId c i) +
    x.pushed.countP (AsyncIOContext.hasId c i) + x.lost (AsyncIOContext.hasId c i) =
      if i < x.ioId c then 1 else 0
  pending : ∀ c i, (x.contexts c).pendingIos.count i =
    hand.ios c i + x.flying (AsyncIOContext.hasId c i) +
      (x.contexts c).ioResponses.countP (AsyncIOContext.hasId c i) +
      x.lost (AsyncIOContext.hasId c i)
  requests : ∀ c q, hand.requests c q + x.flying (AsyncIOContext.serves c q) +
    x.queued numContexts c q + x.calls c q + x.lost (AsyncIOContext.serves c q) =
      if q < x.numRequests c then 1 else 0
  final : ∀ entry ∈ x.calledBack, entry.2 = .ok ∨ entry.2 = .notFound

end Counts

section Steps

theorem Accounts.takeRead (h : Accounts d numContexts .nothing x)
    (hat : x.inFlight[i]? = some flight)
    (result : Status) :
    Accounts d numContexts (if result = .ok then .io flight.io else .nothing) { x with
      inFlight := x.inFlight.eraseIdx i
      results := (flight.io, result) :: x.results } := by
  have hflying : ∀ p : AsyncIOContext K → Bool, x.flying p =
      (x.inFlight.eraseIdx i).countP (fun r => p r.io) + if p flight.io then 1 else 0 :=
    fun p => countP_eraseIdx (fun r : Read K => p r.io) hat
  refine ⟨fun r hr => h.onDisk r (List.mem_of_mem_eraseIdx hr), h.owners, h.idle, fun c i => ?_,
    fun c i => ?_, fun c q => ?_, h.final⟩
  · have := h.issued c i
    rw [hflying] at this
    by_cases hok : result = .ok <;>
      simp [System.flying, System.lost, Hand.ios, hok, List.countP_cons] at this ⊢ <;> omega
  · have := h.pending c i
    rw [hflying] at this
    by_cases hok : result = .ok <;>
      simp [System.flying, System.lost, Hand.ios, hok, List.countP_cons] at this ⊢ <;> omega
  · have := h.requests c q
    rw [hflying] at this
    by_cases hok : result = .ok <;>
      simp [System.flying, System.lost, System.calls, System.queued, Hand.requests, hok,
        List.countP_cons] at this ⊢ <;>
      omega

theorem Accounts.read (h : Accounts d numContexts (.io io) x) (n : Nat) (submitted : Status)
    (hdisk : (d.record io.address).isSome) (howner : io.owner < numContexts) :
    Accounts d numContexts .nothing (x.read f io n submitted) := by
  -- the read is in flight, or it is lost
  have hone : ∀ p : AsyncIOContext K → Bool,
      (x.read f io n submitted).flying p + (x.read f io n submitted).lost p =
        x.flying p + x.lost p + if p io then 1 else 0 := by
    intro p
    by_cases hok : submitted = .ok <;>
      simp [System.flying, System.lost, System.read, hok, List.countP_append, List.countP_cons] <;>
      omega
  refine ⟨fun r hr => ?_, h.owners, h.idle, fun c i => (?_ : _ = if i < x.ioId c then 1 else 0),
    fun c i => (?_ : (x.contexts c).pendingIos.count i = _),
    fun c q => (?_ : _ = if q < x.numRequests c then 1 else 0), h.final⟩
  · simp only [System.read] at hr
    split at hr
    · rcases List.mem_append.mp hr with hr | hr
      · exact h.onDisk r hr
      · rw [List.mem_singleton.mp hr]
        exact ⟨hdisk, howner⟩
    · exact h.onDisk r hr
  · have := h.issued c i
    have hboth := hone (AsyncIOContext.hasId c i)
    have hpushed : (x.read f io n submitted).pushed = x.pushed := rfl
    simp only [Hand.ios] at this ⊢
    rw [hpushed]
    omega
  · have := h.pending c i
    have hboth := hone (AsyncIOContext.hasId c i)
    have hcontexts : (x.read f io n submitted).contexts = x.contexts := rfl
    simp only [Hand.ios] at this ⊢
    rw [hcontexts]
    omega
  · have := h.requests c q
    have hboth := hone (AsyncIOContext.serves c q)
    have hqueued : (x.read f io n submitted).queued numContexts c q = x.queued numContexts c q :=
      rfl
    have hcalls : (x.read f io n submitted).calls c q = x.calls c q := rfl
    simp only [Hand.requests] at this ⊢
    rw [hqueued, hcalls]
    omega

theorem Accounts.next_address (h : Accounts d numContexts (.io io) x) (address : Nat) :
    Accounts d numContexts (.io { io with address := address }) x :=
  ⟨h.onDisk, h.owners, h.idle, h.issued, h.pending, h.requests, h.final⟩

theorem Accounts.respond (h : Accounts d numContexts (.io io) x) (howner : io.owner < numContexts) :
    Accounts d numContexts .nothing (x.respond io) := by
  have hself : ((x.respond io).contexts io.owner) = { x.contexts io.owner with
      ioResponses := (x.contexts io.owner).ioResponses ++ [io] } :=
    Function.update_self ..
  have hother : ∀ c, c ≠ io.owner → (x.respond io).contexts c = x.contexts c :=
    fun c hc => Function.update_of_ne hc ..
  refine ⟨h.onDisk, fun c io' hio => ?_, fun c hc => ?_,
    fun c i => (?_ : _ = if i < x.ioId c then 1 else 0), fun c i => ?_,
    fun c q => (?_ : _ = if q < x.numRequests c then 1 else 0), h.final⟩
  · by_cases hc : c = io.owner
    · subst c
      rw [hself] at hio
      rcases List.mem_append.mp hio with hio | hio
      · exact h.owners _ io' hio
      · rw [List.mem_singleton.mp hio]
    · rw [hother c hc] at hio
      exact h.owners c io' hio
  · rw [hother c (by omega)]
    exact h.idle c hc
  · have := h.issued c i
    simp only [Hand.ios, System.respond, System.flying, System.lost, List.countP_cons] at this ⊢
    omega
  · have := h.pending c i
    simp only [Hand.ios] at this ⊢
    by_cases hc : c = io.owner
    · subst c
      rw [hself]
      simp only [System.respond, System.flying, System.lost, List.countP_append,
        List.countP_singleton] at this ⊢
      omega
    · rw [hother c hc]
      have hno : io.hasId c i = false := decide_eq_false fun hp => hc hp.1.symm
      simp only [hno, Bool.false_eq_true, if_false, System.respond, System.flying,
        System.lost] at this ⊢
      omega
  · have := h.requests c q
    have hqueued := queued_update (x := x) (y := x.respond io) howner rfl c q
    simp only [ExecutionContext.queued, List.countP_append, List.countP_singleton] at hqueued
    simp only [Hand.requests] at this ⊢
    simp only [System.respond, System.flying, System.lost, System.calls] at this hqueued ⊢
    omega

theorem Accounts.callBack (h : Accounts d numContexts (.request request) x) {status : Status}
    (hstatus : status = .ok ∨ status = .notFound) :
    Accounts d numContexts .nothing (x.callBack request status) := by
  refine ⟨h.onDisk, h.owners, h.idle, h.issued, h.pending,
    fun c q => (?_ : _ = if q < x.numRequests c then 1 else 0), fun entry he => ?_⟩
  · have := h.requests c q
    simp only [Hand.requests, System.callBack, System.flying, System.lost, System.calls,
      System.queued, List.countP_cons] at this ⊢
    omega
  · rcases List.mem_cons.mp he with rfl | he
    · exact hstatus
    · exact h.final entry he

theorem Accounts.retryLater (h : Accounts d numContexts (.request request) x)
    (hb : b < numContexts) : Accounts d numContexts .nothing (x.retryLater b request) := by
  have hself : ((x.retryLater b request).contexts b) = { x.contexts b with
      retryRequests := (x.contexts b).retryRequests ++ [request] } :=
    Function.update_self ..
  have hother : ∀ c, c ≠ b → (x.retryLater b request).contexts c = x.contexts c :=
    fun c hc => Function.update_of_ne hc ..
  refine ⟨h.onDisk, fun c io hio => ?_, fun c hc => ?_, h.issued, fun c i => ?_,
    fun c q => (?_ : _ = if q < x.numRequests c then 1 else 0), h.final⟩
  · by_cases hcb : c = b
    · subst c
      rw [hself] at hio
      exact h.owners _ io hio
    · rw [hother c hcb] at hio
      exact h.owners c io hio
  · rw [hother c (by omega)]
    exact h.idle c hc
  · have := h.pending c i
    by_cases hcb : c = b
    · subst c
      rw [hself]
      exact this
    · rw [hother c hcb]
      exact this
  · have := h.requests c q
    have hqueued := queued_update (x := x) (y := x.retryLater b request) hb rfl c q
    simp only [ExecutionContext.queued, List.countP_append, List.countP_singleton] at hqueued
    simp only [Hand.requests] at this ⊢
    simp only [System.retryLater, System.flying, System.lost, System.calls] at this hqueued ⊢
    omega

theorem Accounts.number (h : Accounts d numContexts (.request request) x) (hc : c < numContexts)
    (address : Nat) (hcontexts : y.contexts = Function.update x.contexts c
      { x.contexts c with pendingIos := x.ioId c :: (x.contexts c).pendingIos })
    (hioId : y.ioId = Function.update x.ioId c (x.ioId c + 1)) (hflight : y.inFlight = x.inFlight)
    (hnumbers : y.numRequests = x.numRequests) (hresults : y.results = x.results)
    (hpushed : y.pushed = x.pushed) (hcalled : y.calledBack = x.calledBack) :
    Accounts d numContexts (.io ⟨c, x.ioId c, address, request⟩) y := by
  have hflying : ∀ p, y.flying p = x.flying p := fun p => congrArg (List.countP _) hflight
  have hlost : ∀ p, y.lost p = x.lost p := fun p => congrArg (List.countP _) hresults
  have hcalls : ∀ b q, y.calls b q = x.calls b q := fun b q => congrArg (List.countP _) hcalled
  have hself : y.contexts c =
      { x.contexts c with pendingIos := x.ioId c :: (x.contexts c).pendingIos } := by
    rw [hcontexts, Function.update_self]
  have hother : ∀ b, b ≠ c → y.contexts b = x.contexts b := by
    intro b hb
    rw [hcontexts, Function.update_of_ne hb]
  refine ⟨hflight ▸ h.onDisk, fun b io hio => ?_, fun b hb => ?_, fun b i => ?_, fun b i => ?_,
    fun b q => ?_, hcalled ▸ h.final⟩
  · by_cases hbc : b = c
    · subst b
      rw [hself] at hio
      exact h.owners _ io hio
    · rw [hother b hbc] at hio
      exact h.owners b io hio
  · rw [hother b (by omega)]
    exact h.idle b hb
  · have := h.issued b i
    rw [hflying, hlost, hpushed, hioId]
    simp only [Hand.ios, AsyncIOContext.hasId] at this ⊢
    by_cases hbc : b = c
    · subst b
      rw [Function.update_self, ite_lt_succ]
      simp only [true_and, decide_eq_true_eq]
      omega
    · rw [Function.update_of_ne hbc]
      simp [Ne.symm hbc] at this ⊢
      omega
  · have := h.pending b i
    rw [hflying, hlost]
    simp only [Hand.ios, AsyncIOContext.hasId] at this ⊢
    by_cases hbc : b = c
    · subst b
      rw [hself, List.count_cons]
      simp at this ⊢
      omega
    · rw [hother b hbc]
      simp [Ne.symm hbc] at this ⊢
      omega
  · have := h.requests b q
    have hqueued := queued_update hc hcontexts b q
    have hserves : (AsyncIOContext.mk c (x.ioId c) address request).serves b q =
      request.hasNumber b q := rfl
    rw [hflying, hlost, hcalls, hnumbers]
    simp only [Hand.requests, ExecutionContext.queued, hserves] at this hqueued ⊢
    omega

theorem Accounts.issue (h : Accounts d numContexts (.request request) x) (hc : c < numContexts)
    (hdisk : (d.record address).isSome) :
    Accounts d numContexts .nothing (x.issue f c request address submitted) := by
  refine Accounts.read (?_ : Accounts d numContexts (.io ⟨c, x.ioId c, address, request⟩) _) _ _
    hdisk hc
  exact h.number hc address rfl rfl rfl rfl rfl rfl rfl

theorem Accounts.continueRmw (h : Accounts d numContexts (.request request) x)
    (hy : x.continueRmw f d numContexts request continued = some y) :
    Accounts d numContexts .nothing y := by
  cases continued with
  | success =>
      cases hy
      exact h.callBack (Or.inl rfl)
  | recordOnDisk into address submitted =>
      simp only [System.continueRmw] at hy
      split at hy
      · rename_i hdisk
        cases hy
        exact h.issue hdisk.1 hdisk.2.2
      · cases hy
  | retryLater into =>
      simp only [System.continueRmw] at hy
      split at hy
      · rename_i hinto
        cases hy
        exact h.retryLater hinto
      · cases hy

theorem Accounts.takeResponse {responses : List (AsyncIOContext K)}
    (h : Accounts d numContexts .nothing x) (hc : c < numContexts)
    (hat : (x.contexts c).ioResponses = io :: responses)
    (hcontexts : y.contexts = Function.update x.contexts c { x.contexts c with
      pendingIos := (x.contexts c).pendingIos.erase io.ioId
      ioResponses := responses })
    (hioId : y.ioId = x.ioId) (hflight : y.inFlight = x.inFlight)
    (hnumbers : y.numRequests = x.numRequests) (hresults : y.results = x.results)
    (hpushed : y.pushed = x.pushed) (hcalled : y.calledBack = x.calledBack) :
    Accounts d numContexts (.request io.request) y := by
  have hflying : ∀ p, y.flying p = x.flying p := fun p => congrArg (List.countP _) hflight
  have hlost : ∀ p, y.lost p = x.lost p := fun p => congrArg (List.countP _) hresults
  have hcalls : ∀ b q, y.calls b q = x.calls b q := fun b q => congrArg (List.countP _) hcalled
  have hself : y.contexts c = { x.contexts c with
      pendingIos := (x.contexts c).pendingIos.erase io.ioId
      ioResponses := responses } := by
    rw [hcontexts, Function.update_self]
  have hother : ∀ b, b ≠ c → y.contexts b = x.contexts b := by
    intro b hb
    rw [hcontexts, Function.update_of_ne hb]
  have howner : io.owner = c := h.owners c io (by rw [hat]; exact List.mem_cons_self)
  refine ⟨hflight ▸ h.onDisk, fun b io' hio => ?_, fun b hb => ?_, fun b i => ?_, fun b i => ?_,
    fun b q => ?_, hcalled ▸ h.final⟩
  · by_cases hbc : b = c
    · subst b
      rw [hself] at hio
      exact h.owners _ io' (by rw [hat]; exact List.mem_cons_of_mem _ hio)
    · rw [hother b hbc] at hio
      exact h.owners b io' hio
  · rw [hother b (by omega)]
    exact h.idle b hb
  · rw [hflying, hlost, hpushed, hioId]
    exact h.issued b i
  · have := h.pending b i
    rw [hflying, hlost]
    by_cases hbc : b = c
    · subst b
      rw [hself]
      rw [hat, List.countP_cons] at this
      simp only [Hand.ios, AsyncIOContext.hasId, howner] at this ⊢
      by_cases hi : io.ioId = i
      · subst i
        rw [List.count_erase_self]
        simp only [and_self, decide_true, if_true] at this
        omega
      · rw [List.count_erase_of_ne (Ne.symm hi)]
        simp only [hi, and_false, decide_false, Bool.false_eq_true, if_false] at this
        omega
    · rw [hother b hbc]
      exact this
  · have := h.requests b q
    have hqueued := queued_update hc hcontexts b q
    have hserves : io.serves b q = io.request.hasNumber b q := rfl
    simp only [ExecutionContext.queued, hat, List.countP_cons, hserves] at hqueued
    rw [hflying, hlost, hcalls, hnumbers]
    simp only [Hand.requests] at this ⊢
    omega

theorem Accounts.takeRequest {requests : List (Request K)}
    (h : Accounts d numContexts .nothing x) (hc : c < numContexts)
    (hat : (x.contexts c).retryRequests = request :: requests)
    (hcontexts : y.contexts = Function.update x.contexts c
      { x.contexts c with retryRequests := requests })
    (hioId : y.ioId = x.ioId) (hflight : y.inFlight = x.inFlight)
    (hnumbers : y.numRequests = x.numRequests) (hresults : y.results = x.results)
    (hpushed : y.pushed = x.pushed) (hcalled : y.calledBack = x.calledBack) :
    Accounts d numContexts (.request request) y := by
  have hflying : ∀ p, y.flying p = x.flying p := fun p => congrArg (List.countP _) hflight
  have hlost : ∀ p, y.lost p = x.lost p := fun p => congrArg (List.countP _) hresults
  have hcalls : ∀ b q, y.calls b q = x.calls b q := fun b q => congrArg (List.countP _) hcalled
  have hself : y.contexts c = { x.contexts c with retryRequests := requests } := by
    rw [hcontexts, Function.update_self]
  have hother : ∀ b, b ≠ c → y.contexts b = x.contexts b := by
    intro b hb
    rw [hcontexts, Function.update_of_ne hb]
  refine ⟨hflight ▸ h.onDisk, fun b io' hio => ?_, fun b hb => ?_, fun b i => ?_, fun b i => ?_,
    fun b q => ?_, hcalled ▸ h.final⟩
  · by_cases hbc : b = c
    · subst b
      rw [hself] at hio
      exact h.owners _ io' hio
    · rw [hother b hbc] at hio
      exact h.owners b io' hio
  · rw [hother b (by omega)]
    exact h.idle b hb
  · rw [hflying, hlost, hpushed, hioId]
    exact h.issued b i
  · have := h.pending b i
    rw [hflying, hlost]
    by_cases hbc : b = c
    · subst b
      rw [hself]
      exact this
    · rw [hother b hbc]
      exact this
  · have := h.requests b q
    have hqueued := queued_update hc hcontexts b q
    simp only [ExecutionContext.queued, hat, List.countP_cons] at hqueued
    rw [hflying, hlost, hcalls, hnumbers]
    simp only [Hand.requests] at this ⊢
    omega

theorem Accounts.newRequest {type : OperationType} {key : K} (h : Accounts d numContexts .nothing x)
    (c : Nat) : Accounts d numContexts (.request ⟨c, x.numRequests c, type, key⟩)
      { x with numRequests := Function.update x.numRequests c (x.numRequests c + 1) } := by
  refine ⟨h.onDisk, h.owners, h.idle, h.issued, h.pending, fun b q => (?_ : _ =
    if q < Function.update x.numRequests c (x.numRequests c + 1) b then 1 else 0), h.final⟩
  have := h.requests b q
  simp only [Hand.requests, Request.hasNumber, System.flying, System.lost, System.calls,
    System.queued] at this ⊢
  by_cases hbc : b = c
  · subst b
    rw [Function.update_self, ite_lt_succ]
    simp only [true_and, decide_eq_true_eq]
    omega
  · rw [Function.update_of_ne hbc]
    simp [Ne.symm hbc] at this ⊢
    omega

end Steps

end HashComp.Reads
