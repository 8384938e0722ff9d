import FrozenHot.Schemes.Run
import FrozenHot.Schemes.Pool
import Mathlib.Data.Int.Order.Basic

/-! The ring of pages between the readers of the device and the reader of the log (`LogPageBuffer`
    of `spdk_logging_recovery.h`).

    A thread that writes claims a sequence number, waits until its slot is free, writes the slot,
    and is done once all numbers before it are. A thread that reads is given the next number, waits
    until it has been written, loads the slot, and releases it once all numbers before it are. Any
    number of threads write and read, with their accesses in any order. -/

namespace FrozenHot
open Schemes

/-- Where a thread is in `GetWriteSeq`, `Write` and `FinishWrite`, or in `Read`: the access it does
    next. -/
inductive BufferPlace (D : Type) where
  | claimed (seq : ℤ)
  | held (seq : ℤ)
  | entered (seq : ℤ)
  | written (seq : ℤ)
  | finishing (seq : ℤ)
  | waiting (seq : ℤ)
  | blocked (seq : ℤ)
  | stopping (seq : ℤ)
  | emptying (seq wrote : ℤ)
  | ready (seq : ℤ)
  | loaded (seq : ℤ) (page : D)
  | turn (seq : ℤ) (page : D)

structure LogPageBuffer (D : Type) where
  lastRead_ : ℤ
  lastWrote_ : ℤ
  lastDispatch_ : ℤ
  writableSeq_ : ℤ
  stop_ : Bool
  buffer_ : ℤ → Option D
  threads : Pool (BufferPlace D)

/-- The accesses of thread `i` to what is shared, one load, store or `fetch_add` each. `enter` is
    the test of the loop of `GetWriteSeq`, `awaitWrite` and `awaitTurn` those of the two loops of
    `Read`, `checkStop` the load of `stop_` in either; `loadWrote` and `empty` are the two loads of
    `Empty`. -/
inductive BufferStep (D : Type) where
  | getWriteSeq (i : ℕ)
  | enter (i : ℕ)
  | checkStop (i : ℕ)
  | write (i : ℕ) (data : D)
  | finishWrite (i : ℕ)
  | publish (i : ℕ)
  | read (i : ℕ)
  | awaitWrite (i : ℕ)
  | loadWrote (i : ℕ)
  | empty (i : ℕ)
  | load (i : ℕ)
  | awaitTurn (i : ℕ)
  | release (i : ℕ)
  | stop

/-- What is seen of an access: a page written or read with its number. -/
inductive BufferEvent (D : Type) where
  | quiet
  | wrote (seq : ℤ) (page : D)
  | gave (seq : ℤ) (page : D)
  | gaveNull
  deriving DecidableEq

namespace LogPageBuffer
variable {D : Type}

def size_ : ℤ := 2 ^ 10

def init : LogPageBuffer D := ⟨-1, -1, -1, 0, false, fun _ => none, []⟩

/-- `Write`: the page goes to the slot of `seq`. -/
def put (s : LogPageBuffer D) (seq : ℤ) (data : D) : LogPageBuffer D :=
  { s with buffer_ := fun x => if x = seq % size_ then some data else s.buffer_ x }

/-- Thread `i` goes on to `d`. -/
def goOn (s : LogPageBuffer D) (i : ℕ) (d : BufferPlace D) : LogPageBuffer D :=
  { s with threads := s.threads.after i (some d) }

/-- Thread `i` returns. -/
def leave (s : LogPageBuffer D) (i : ℕ) : LogPageBuffer D :=
  { s with threads := s.threads.after i none }

def step (s : LogPageBuffer D) : BufferStep D → Except Fault (BufferEvent D × LogPageBuffer D)
  | .getWriteSeq i => match s.threads.get i with
    | none => return (.quiet, { s with
        writableSeq_ := s.writableSeq_ + 1, threads := s.threads.add i (.claimed s.writableSeq_) })
    | some _ => throw .diverge
  | .enter i => match s.threads.get i with
    | some (.claimed seq) =>
      return (.quiet, s.goOn i (if seq - s.lastRead_ > size_ then .held seq else .entered seq))
    | _ => throw .diverge
  | .checkStop i => match s.threads.get i with
    | some (.held seq) =>
      return (.quiet, if s.stop_ then s.leave i else s.goOn i (.claimed seq))
    | some (.blocked seq) =>
      return (.quiet, s.goOn i (if s.stop_ then .stopping seq else .waiting seq))
    | _ => throw .diverge
  | .write i data => match s.threads.get i with
    | some (.entered seq) =>
      return (.wrote seq data, (s.put seq data).goOn i (.written seq))
    | _ => throw .diverge
  | .finishWrite i => match s.threads.get i with
    -- `FinishWrite` has returned false: the writer calls it again
    | some (.written seq) =>
      return (.quiet, if seq - 1 ≠ s.lastWrote_ then s else s.goOn i (.finishing seq))
    | _ => throw .diverge
  | .publish i => match s.threads.get i with
    | some (.finishing seq) => return (.quiet, { s.leave i with lastWrote_ := seq })
    | _ => throw .diverge
  | .read i => match s.threads.get i with
    | none => return (.quiet, { s with
        lastDispatch_ := s.lastDispatch_ + 1
        threads := s.threads.add i (.waiting (s.lastDispatch_ + 1)) })
    | some _ => throw .diverge
  | .awaitWrite i => match s.threads.get i with
    | some (.waiting seq) =>
      return (.quiet, s.goOn i (if seq > s.lastWrote_ then .blocked seq else .ready seq))
    | _ => throw .diverge
  | .loadWrote i => match s.threads.get i with
    | some (.stopping seq) => return (.quiet, s.goOn i (.emptying seq s.lastWrote_))
    | _ => throw .diverge
  | .empty i => match s.threads.get i with
    | some (.emptying seq wrote) =>
      if wrote = s.lastRead_ then return (.gaveNull, s.leave i)
      else return (.quiet, s.goOn i (.waiting seq))
    | _ => throw .diverge
  | .load i => match s.threads.get i with
    | some (.ready seq) => match s.buffer_ (seq % size_) with
      | none => throw .deref
      | some page => return (.quiet, s.goOn i (.loaded seq page))
    | _ => throw .diverge
  | .awaitTurn i => match s.threads.get i with
    | some (.loaded seq page) =>
      return (.quiet, if seq - 1 ≠ s.lastRead_ then s else s.goOn i (.turn seq page))
    | _ => throw .diverge
  | .release i => match s.threads.get i with
    | some (.turn seq page) => return (.gave seq page, { s.leave i with lastRead_ := seq })
    | _ => throw .diverge
  | .stop => return (.quiet, { s with stop_ := true })

/-- The pages written, with their numbers. -/
def writes (H : List (BufferStep D × BufferEvent D)) : List (ℤ × D) :=
  H.filterMap fun
    | (_, .wrote seq page) => some (seq, page)
    | _ => none

/-- The pages read, with their numbers. -/
def reads (H : List (BufferStep D × BufferEvent D)) : List (ℤ × D) :=
  H.filterMap fun
    | (_, .gave seq page) => some (seq, page)
    | _ => none

/-! ### The invariant -/

/-- The number a thread writes. -/
def writes? : BufferPlace D → Option ℤ
  | .claimed seq | .held seq | .entered seq | .written seq | .finishing seq => some seq
  | _ => none

/-- The number under which a thread has written, when its turn to say so has not come. -/
def wrote? : BufferPlace D → Option ℤ
  | .written seq | .finishing seq => some seq
  | _ => none

/-- The number a thread reads. -/
def reads? : BufferPlace D → Option ℤ
  | .waiting seq | .blocked seq | .stopping seq | .emptying seq _ | .ready seq | .loaded seq _
  | .turn seq _ => some seq
  | _ => none

/-- The slot of `seq` holds the page written under `seq`. -/
def Slot (W : List (ℤ × D)) (s : LogPageBuffer D) (seq : ℤ) : Prop :=
  ∃ page, s.buffer_ (seq % size_) = some page ∧ (seq, page) ∈ W

/-- No two threads write the same number, or read the same number. -/
structure Apart (p : Pool (BufferPlace D)) : Prop where
  distinct : p.Distinct
  writers : (p.filterMap fun x => writes? x.2).Nodup
  readers : (p.filterMap fun x => reads? x.2).Nodup

/-- The number of a writer is given out and not yet among those written. -/
def Claims (s : LogPageBuffer D) (seq : ℤ) : Prop := s.lastWrote_ < seq ∧ seq < s.writableSeq_

/-- The number of a reader is given out and not yet among those read. -/
def Asks (s : LogPageBuffer D) (seq : ℤ) : Prop := s.lastRead_ < seq ∧ seq ≤ s.lastDispatch_

/-- A thread with the counters and the slots. -/
def Fits (W : List (ℤ × D)) (s : LogPageBuffer D) : BufferPlace D → Prop
  | .claimed seq | .held seq => Claims s seq
  | .entered seq => Claims s seq ∧ seq - s.lastRead_ ≤ size_
  | .written seq => Claims s seq ∧ seq - s.lastRead_ ≤ size_ ∧ Slot W s seq
  | .finishing seq =>
    Claims s seq ∧ seq - s.lastRead_ ≤ size_ ∧ Slot W s seq ∧ seq - 1 = s.lastWrote_
  | .waiting seq | .blocked seq | .stopping seq | .emptying seq _ => Asks s seq
  | .ready seq => Asks s seq ∧ seq ≤ s.lastWrote_
  | .loaded seq page => Asks s seq ∧ seq ≤ s.lastWrote_ ∧ (seq, page) ∈ W
  | .turn seq page =>
    Asks s seq ∧ seq ≤ s.lastWrote_ ∧ (seq, page) ∈ W ∧ seq - 1 = s.lastRead_

/-- After the writes `W` and the reads `R`. -/
structure Inv (W R : List (ℤ × D)) (s : LogPageBuffer D) : Prop where
  apart : Apart s.threads
  fits : ∀ x ∈ s.threads, Fits W s x.2
  start : -1 ≤ s.lastRead_
  behind : s.lastRead_ ≤ s.lastWrote_
  claimed : s.lastWrote_ < s.writableSeq_
  dispatched : s.lastRead_ ≤ s.lastDispatch_
  slots : ∀ seq, s.lastRead_ < seq → seq ≤ s.lastWrote_ → Slot W s seq
  once : (W.map Prod.fst).Nodup
  known : ∀ x ∈ W, x.1 ≤ s.lastWrote_ ∨ ∃ y ∈ s.threads, wrote? y.2 = some x.1
  order : R.map Prod.fst = (List.range R.length).map Int.ofNat
  count : s.lastRead_ = R.length - 1
  source : ∀ x ∈ R, x ∈ W

theorem inv_init : Inv [] [] (init : LogPageBuffer D) where
  apart := ⟨List.nodup_nil, List.nodup_nil, List.nodup_nil⟩
  fits := by simp [init]
  start := le_rfl
  behind := le_rfl
  claimed := show (-1 : ℤ) < 0 by decide
  dispatched := le_rfl
  slots := fun seq h1 h2 => absurd (lt_of_lt_of_le h1 h2) (lt_irrefl _)
  once := List.nodup_nil
  known := by simp
  order := rfl
  count := rfl
  source := by simp

variable {W W' R : List (ℤ × D)} {s s' : LogPageBuffer D} {i : ℕ} {seq seq' : ℤ}
    {c d : BufferPlace D} {page data : D}
variable {p A B : Pool (BufferPlace D)} {x : ℕ × BufferPlace D}

/-! ### Threads among the others -/

/-- No other thread has the number of a thread. -/
theorem Apart.other (h : Apart (A ++ (i, c) :: B)) (hx : x ∈ A ++ B) :
    (∀ q, writes? c = some q → writes? x.2 ≠ some q) ∧ ∀ q, reads? c = some q →
    reads? x.2 ≠ some q := by
  have hw :=
    (List.Perm.filterMap (fun x => writes? x.2) (List.perm_middle (a := (i, c)))).nodup_iff.mp
      h.writers
  have hr :=
    (List.Perm.filterMap (fun x => reads? x.2) (List.perm_middle (a := (i, c)))).nodup_iff.mp
      h.readers
  constructor
  · intro q hc hq
    rw [List.filterMap_cons_some (by exact hc), List.nodup_cons] at hw
    exact hw.1 (List.mem_filterMap.mpr ⟨x, hx, hq⟩)
  · intro q hc hq
    rw [List.filterMap_cons_some (by exact hc), List.nodup_cons] at hr
    exact hr.1 (List.mem_filterMap.mpr ⟨x, hx, hq⟩)

theorem Apart.set (h : Apart (A ++ (i, c) :: B)) (hw : writes? d = writes? c)
    (hr : reads? d = reads? c) :
    Apart (A ++ (i, d) :: B) := by
  obtain ⟨hd, hwriters, hreaders⟩ := h
  refine ⟨Pool.distinct_middle.mpr (Pool.distinct_middle.mp hd), ?_, ?_⟩
  · simpa only [List.filterMap_append, List.filterMap_cons, hw] using hwriters
  · simpa only [List.filterMap_append, List.filterMap_cons, hr] using hreaders

theorem Apart.remove (h : Apart (A ++ (i, c) :: B)) : Apart (A ++ B) := by
  have hsub : (A ++ B).Sublist (A ++ (i, c) :: B) :=
    (List.Sublist.refl A).append (List.sublist_cons_self _ B)
  exact ⟨(Pool.distinct_middle.mp h.distinct).2, h.writers.sublist (hsub.filterMap _),
    h.readers.sublist (hsub.filterMap _)⟩

theorem Apart.add (h : Apart p) (hfree : p.get i = none)
    (hw : ∀ q, writes? c = some q → ∀ x ∈ p, writes? x.2 ≠ some q)
    (hr : ∀ q, reads? c = some q → ∀ x ∈ p, reads? x.2 ≠ some q) : Apart (p.add i c) := by
  refine ⟨List.nodup_cons.mpr ⟨Pool.notMem_of_get_none h.distinct hfree, h.distinct⟩, ?_, ?_⟩
  · cases hc : writes? c with
    | none =>
      rw [Pool.add, List.filterMap_cons_none (by exact hc)]
      exact h.writers
    | some q =>
      rw [Pool.add, List.filterMap_cons_some (by exact hc), List.nodup_cons]
      refine ⟨fun hmem => ?_, h.writers⟩
      obtain ⟨x, hx, hq⟩ := List.mem_filterMap.mp hmem
      exact hw q hc x hx hq
  · cases hc : reads? c with
    | none =>
      rw [Pool.add, List.filterMap_cons_none (by exact hc)]
      exact h.readers
    | some q =>
      rw [Pool.add, List.filterMap_cons_some (by exact hc), List.nodup_cons]
      refine ⟨fun hmem => ?_, h.readers⟩
      obtain ⟨x, hx, hq⟩ := List.mem_filterMap.mp hmem
      exact hr q hc x hx hq

/-- A thread, and what the invariant says of it and of the others. -/
theorem Inv.split (hi : Inv W R s) (hget : s.threads.get i = some c) :
    ∃ A B, s.threads = A ++ (i, c) :: B ∧
    (∀ d, s.threads.after i (some d) = A ++ (i, d) :: B) ∧ s.threads.after i none = A ++ B ∧
    Apart (A ++ (i, c) :: B) ∧
    Fits W s c ∧ ∀ x ∈ A ++ B, Fits W s x.2 := by
  obtain ⟨A, B, hsplit, -, hset, hremove⟩ := Pool.split hi.apart.distinct hget
  have hapart := hi.apart
  have hfits := hi.fits
  rw [hsplit] at hapart hfits
  refine ⟨A, B, hsplit, hset, hremove, hapart, hfits (i, c) (by simp), fun x hx => hfits x ?_⟩
  rcases List.mem_append.mp hx with hx | hx <;> simp [hx]

theorem mem_middle (hx : x ∈ A ++ (i, d) :: B) : x = (i, d) ∨ x ∈ A ++ B := by
  simp only [List.mem_append, List.mem_cons] at hx ⊢
  tauto

/-- A page that waits for its turn is one of another thread, when this one has not written. -/
theorem Inv.known_others (hi : Inv W R s) (hsplit : s.threads = A ++ (i, c) :: B)
    (hwrote : wrote? c = none) {w : ℤ × D} (hw : w ∈ W) :
    w.1 ≤ s.lastWrote_ ∨ ∃ y ∈ A ++ B, wrote? y.2 = some w.1 := by
  refine (hi.known w hw).imp_right ?_
  rintro ⟨y, hy, hyw⟩
  rw [hsplit] at hy
  rcases mem_middle hy with rfl | hy
  · cases hwrote.symm.trans hyw
  · exact ⟨y, hy, hyw⟩

theorem writes?_of_wrote? (h : wrote? c = some seq) : writes? c = some seq := by
  cases c <;> first | exact h | cases h

theorem mem_insert_middle (hx : x ∈ A ++ B) : x ∈ A ++ (i, d) :: B := by
  rcases List.mem_append.mp hx with hx | hx <;> simp [hx]

/-! ### Slots -/

theorem Slot.mono (h : Slot W s seq) (hbuf : s'.buffer_ (seq % size_) = s.buffer_ (seq % size_))
    (hW : W ⊆ W') :
    Slot W' s' seq := by
  obtain ⟨page, hpage, hmem⟩ := h
  exact ⟨page, hbuf.trans hpage, hW hmem⟩

/-- Two numbers of the window that is open have slots of their own. -/
theorem slot_ne {l : ℤ} (h1 : l < seq) (h2 : seq - l ≤ size_) (h1' : l < seq')
    (h2' : seq' - l ≤ size_) (hne : seq ≠ seq') :
    seq % size_ ≠ seq' % size_ := by
  unfold size_ at *
  omega

/-! ### Steps -/

/-- The place of a thread is all that changes, or a counter that only bounds the threads. -/
theorem Fits.congr (h : Fits W s c) (hread : s'.lastRead_ = s.lastRead_)
    (hwrote : s'.lastWrote_ = s.lastWrote_) (hwritable : s.writableSeq_ ≤ s'.writableSeq_)
    (hdispatch : s.lastDispatch_ ≤ s'.lastDispatch_) (hbuf : s'.buffer_ = s.buffer_) :
    Fits W s' c := by
  have hclaims : ∀ {q}, Claims s q → Claims s' q := fun hq =>
    ⟨hwrote ▸ hq.1, hq.2.trans_le hwritable⟩
  have hasks : ∀ {q}, Asks s q → Asks s' q := fun hq => ⟨hread ▸ hq.1, hq.2.trans hdispatch⟩
  have hslot : ∀ {q}, Slot W s q → Slot W s' q := fun hq =>
    hq.mono (by rw [hbuf]) (List.Subset.refl W)
  cases c with
  | claimed q | held q => exact hclaims h
  | entered q => exact ⟨hclaims h.1, hread ▸ h.2⟩
  | written q => exact ⟨hclaims h.1, hread ▸ h.2.1, hslot h.2.2⟩
  | finishing q => exact ⟨hclaims h.1, hread ▸ h.2.1, hslot h.2.2.1, hwrote ▸ h.2.2.2⟩
  | waiting q | blocked q | stopping q | emptying q wrote => exact hasks h
  | ready q => exact ⟨hasks h.1, hwrote ▸ h.2⟩
  | loaded q page => exact ⟨hasks h.1, hwrote ▸ h.2.1, h.2.2⟩
  | turn q page => exact ⟨hasks h.1, hwrote ▸ h.2.1, h.2.2.1, hread ▸ h.2.2.2⟩

theorem Fits.claims (h : Fits W s c) (hc : writes? c = some seq) : Claims s seq := by
  cases c <;> cases hc <;> first | exact h | exact h.1

theorem Fits.asks (h : Fits W s c) (hc : reads? c = some seq) : Asks s seq := by
  cases c <;> cases hc <;> first | exact h | exact h.1

theorem Inv.getWriteSeq (hi : Inv W R s) (hfree : s.threads.get i = none) : Inv W R { s with
    writableSeq_ := s.writableSeq_ + 1, threads := s.threads.add i (.claimed s.writableSeq_) } := by
  have hclaimed := hi.claimed
  refine ⟨hi.apart.add hfree ?_ nofun, fun x hx => ?_, hi.start, hi.behind, ?_, hi.dispatched,
    hi.slots, hi.once, ?_, hi.order, hi.count, hi.source⟩
  · rintro q ⟨⟩ x hx hq
    exact lt_irrefl _ ((hi.fits x hx).claims hq).2
  · rcases List.mem_cons.mp hx with rfl | hx
    · exact ⟨hclaimed, Int.lt_succ _⟩
    · exact (hi.fits x hx).congr rfl rfl (by dsimp only; omega) le_rfl rfl
  · dsimp only
    omega
  · intro x hx
    refine (hi.known x hx).imp_right ?_
    rintro ⟨y, hy, hyx⟩
    exact ⟨y, List.mem_cons_of_mem _ hy, hyx⟩

theorem Inv.read (hi : Inv W R s) (hfree : s.threads.get i = none) : Inv W R { s with
    lastDispatch_ := s.lastDispatch_ + 1
    threads := s.threads.add i (.waiting (s.lastDispatch_ + 1)) } := by
  have hdispatched := hi.dispatched
  refine ⟨hi.apart.add hfree nofun ?_, fun x hx => ?_, hi.start, hi.behind, hi.claimed, ?_,
    hi.slots, hi.once, ?_, hi.order, hi.count, hi.source⟩
  · rintro q ⟨⟩ x hx hq
    have := ((hi.fits x hx).asks hq).2
    omega
  · rcases List.mem_cons.mp hx with rfl | hx
    · exact ⟨Int.lt_add_one_of_le hdispatched, le_rfl⟩
    · exact (hi.fits x hx).congr rfl rfl le_rfl (by dsimp only; omega) rfl
  · dsimp only
    omega
  · intro x hx
    refine (hi.known x hx).imp_right ?_
    rintro ⟨y, hy, hyx⟩
    exact ⟨y, List.mem_cons_of_mem _ hy, hyx⟩

/-- A thread goes on to a place that fits; nothing else changes. -/
theorem Inv.goOn (hi : Inv W R s) (hget : s.threads.get i = some c) (hw : writes? d = writes? c)
    (hr : reads? d = reads? c) (hwrote : wrote? d = wrote? c) (hfit : Fits W s d) :
    Inv W R (s.goOn i d) := by
  obtain ⟨A, B, hsplit, hset, -, hapart, -, hfits⟩ := hi.split hget
  have hthreads : (s.goOn i d).threads = A ++ (i, d) :: B := hset d
  refine ⟨?_, fun x hx => ?_, hi.start, hi.behind, hi.claimed, hi.dispatched, hi.slots, hi.once,
    fun x hx => ?_, hi.order, hi.count, hi.source⟩
  · rw [hthreads]
    exact hapart.set hw hr
  · rw [hthreads] at hx
    rcases mem_middle hx with rfl | hx
    · exact hfit.congr rfl rfl le_rfl le_rfl rfl
    · exact (hfits x hx).congr rfl rfl le_rfl le_rfl rfl
  · refine (hi.known x hx).imp_right ?_
    rintro ⟨y, hy, hyx⟩
    rw [hthreads]
    rw [hsplit] at hy
    rcases mem_middle hy with rfl | hy
    · exact ⟨(i, d), by simp, hwrote.trans hyx⟩
    · exact ⟨y, mem_insert_middle hy, hyx⟩

/-- A thread that has written nothing returns. -/
theorem Inv.leave (hi : Inv W R s) (hget : s.threads.get i = some c) (hwrote : wrote? c = none) :
    Inv W R (s.leave i) := by
  obtain ⟨A, B, hsplit, -, hremove, hapart, -, hfits⟩ := hi.split hget
  have hthreads : (s.leave i).threads = A ++ B := hremove
  refine ⟨?_, fun x hx => ?_, hi.start, hi.behind, hi.claimed, hi.dispatched, hi.slots, hi.once,
    fun x hx => ?_, hi.order, hi.count, hi.source⟩
  · rw [hthreads]
    exact hapart.remove
  · rw [hthreads] at hx
    exact (hfits x hx).congr rfl rfl le_rfl le_rfl rfl
  · refine (hi.known_others hsplit hwrote hx).imp_right ?_
    rintro ⟨y, hy, hyx⟩
    exact ⟨y, by rw [hthreads]; exact hy, hyx⟩

/-! ### A write to a slot -/

/-- The slots of other numbers in the window stay. -/
theorem Slot.put (h : Slot W s seq') (h1 : s.lastRead_ < seq) (h2 : seq - s.lastRead_ ≤ size_)
    (h1' : s.lastRead_ < seq') (h2' : seq' - s.lastRead_ ≤ size_) (hne : seq' ≠ seq) (data : D) :
    Slot (W ++ [(seq, data)]) (s.put seq data) seq' :=
  h.mono (if_neg (slot_ne h1' h2' h1 h2 hne)) (List.subset_append_left _ _)

/-- So another thread fits after a write. -/
theorem Fits.put (h : Fits W s c) (h1 : s.lastRead_ < seq) (h2 : seq - s.lastRead_ ≤ size_)
    (hbehind : s.lastRead_ ≤ s.lastWrote_) (hother : writes? c ≠ some seq) (data : D) :
    Fits (W ++ [(seq, data)]) (s.put seq data) c := by
  have hW : W ⊆ W ++ [(seq, data)] := List.subset_append_left _ _
  have hslot : ∀ {q}, Claims s q → q - s.lastRead_ ≤ size_ → q ≠ seq → Slot W s q →
      Slot (W ++ [(seq, data)]) (s.put seq data) q := fun hq hroom hne hs =>
    hs.put h1 h2 (hbehind.trans_lt hq.1) hroom hne data
  cases c with
  | claimed q | held q | entered q | waiting q | blocked q | stopping q | emptying q wrote
  | ready q => exact h
  | written q =>
    obtain ⟨hq, hroom, hs⟩ := h
    exact ⟨hq, hroom, hslot hq hroom (fun h => hother (congrArg some h)) hs⟩
  | finishing q =>
    obtain ⟨hq, hroom, hs, hnext⟩ := h
    exact ⟨hq, hroom, hslot hq hroom (fun h => hother (congrArg some h)) hs, hnext⟩
  | loaded q page => exact ⟨h.1, h.2.1, hW h.2.2⟩
  | turn q page => exact ⟨h.1, h.2.1, hW h.2.2.1, h.2.2.2⟩

theorem Inv.write (hi : Inv W R s) (hget : s.threads.get i = some (.entered seq)) (data : D) :
    Inv (W ++ [(seq, data)]) R ((s.put seq data).goOn i (.written seq)) := by
  obtain ⟨A, B, hsplit, hset, -, hapart, ⟨hclaims, hroom⟩, hfits⟩ := hi.split hget
  have hthreads : ((s.put seq data).goOn i (.written seq)).threads = A ++ (i, .written seq) :: B :=
    hset _
  have hopen : s.lastRead_ < seq := hi.behind.trans_lt hclaims.1
  refine ⟨?_, fun x hx => ?_, hi.start, hi.behind, hi.claimed, hi.dispatched, fun q h1 h2 => ?_, ?_,
    fun x hx => ?_, hi.order, hi.count, fun x hx => List.mem_append_left _ (hi.source x hx)⟩
  · rw [hthreads]
    exact hapart.set rfl rfl
  · rw [hthreads] at hx
    rcases mem_middle hx with rfl | hx
    · exact ⟨hclaims, hroom, data, if_pos rfl, by simp⟩
    · exact (hfits x hx).put hopen hroom hi.behind ((hapart.other hx).1 seq rfl) data
  · have hlt : q < seq := lt_of_le_of_lt h2 hclaims.1
    exact (hi.slots q h1 h2).put hopen hroom h1 (by omega) hlt.ne data
  · -- a number written before is in order already, or another thread's
    rw [List.map_append, List.map_singleton]
    refine List.nodup_append.mpr ⟨hi.once, List.nodup_singleton _, ?_⟩
    rintro _ hq _ hq' rfl
    rw [List.mem_singleton.mp hq'] at hq
    obtain ⟨x, hx, hxq⟩ := List.mem_map.mp hq
    rcases hi.known_others hsplit rfl hx with hle | ⟨y, hy, hyx⟩
    · exact absurd hclaims.1 (not_lt.mpr (hxq.symm.le.trans hle))
    · exact (hapart.other hy).1 seq rfl (by rw [writes?_of_wrote? hyx, hxq])
  · rw [hthreads]
    rcases List.mem_append.mp hx with hx | hx
    · refine (hi.known_others hsplit rfl hx).imp_right ?_
      rintro ⟨y, hy, hyx⟩
      exact ⟨y, mem_insert_middle hy, hyx⟩
    · rw [List.mem_singleton.mp hx]
      exact Or.inr ⟨(i, .written seq), by simp, rfl⟩

/-! ### The counters go on -/

/-- Another thread fits after the next number has been written. -/
theorem Fits.wrote (h : Fits W s c) (hnext : seq - 1 = s.lastWrote_) (hother : writes? c ≠ some seq)
    (p : Pool (BufferPlace D)) : Fits W { s with lastWrote_ := seq, threads := p } c := by
  have hclaims : ∀ {q}, Claims s q → q ≠ seq →
      Claims { s with lastWrote_ := seq, threads := p } q := fun hq hne =>
    ⟨by have := hq.1; dsimp only; omega, hq.2⟩
  have hne : ∀ {q}, writes? c = some q → q ≠ seq := fun hq h => hother (h ▸ hq)
  cases c with
  | claimed q | held q => exact hclaims h (hne rfl)
  | entered q | written q => exact ⟨hclaims h.1 (hne rfl), h.2⟩
  | finishing q => exact absurd (by have := h.2.2.2; omega) (hne rfl)
  | waiting q | blocked q | stopping q | emptying q wrote => exact h
  | ready q => exact ⟨h.1, by have := h.2; dsimp only; omega⟩
  | loaded q page | turn q page => exact ⟨h.1, by have := h.2.1; dsimp only; omega, h.2.2⟩

theorem Inv.publish (hi : Inv W R s) (hget : s.threads.get i = some (.finishing seq)) :
    Inv W R { s.leave i with lastWrote_ := seq } := by
  obtain ⟨A, B, hsplit, -, hremove, hapart, ⟨hclaims, -, hslot, hnext⟩, hfits⟩ := hi.split hget
  have hthreads : (s.leave i).threads = A ++ B := hremove
  have hlt := hclaims.1
  refine ⟨?_, fun x hx => ?_, hi.start, hi.behind.trans hlt.le, hclaims.2, hi.dispatched,
    fun q h1 h2 => ?_, hi.once, fun x hx => ?_, hi.order, hi.count, hi.source⟩
  · rw [hthreads]
    exact hapart.remove
  · rw [hthreads] at hx
    exact (hfits x hx).wrote hnext ((hapart.other hx).1 seq rfl) _
  · by_cases hq : q = seq
    · rw [hq]
      exact hslot
    · exact hi.slots q h1 (by dsimp only at h2; omega)
  · rcases hi.known x hx with hle | ⟨y, hy, hyx⟩
    · exact Or.inl (hle.trans hlt.le)
    · rw [hsplit] at hy
      rcases mem_middle hy with rfl | hy
      · cases hyx
        exact Or.inl le_rfl
      · exact Or.inr ⟨y, by rw [hthreads]; exact hy, hyx⟩

/-- Another thread fits after the next number has been read. -/
theorem Fits.gave (h : Fits W s c) (hnext : seq - 1 = s.lastRead_) (hother : reads? c ≠ some seq)
    (p : Pool (BufferPlace D)) : Fits W { s with lastRead_ := seq, threads := p } c := by
  have hasks : ∀ {q}, Asks s q → q ≠ seq → Asks { s with lastRead_ := seq, threads := p } q :=
    fun hq hne => ⟨by have := hq.1; dsimp only; omega, hq.2⟩
  have hne : ∀ {q}, reads? c = some q → q ≠ seq := fun hq h => hother (h ▸ hq)
  cases c with
  | claimed q | held q => exact h
  | entered q => exact ⟨h.1, by have := h.2; dsimp only; omega⟩
  | written q | finishing q => exact ⟨h.1, by have := h.2.1; dsimp only; omega, h.2.2⟩
  | waiting q | blocked q | stopping q | emptying q wrote => exact hasks h (hne rfl)
  | ready q | loaded q page => exact ⟨hasks h.1 (hne rfl), h.2⟩
  | turn q page => exact absurd (by have := h.2.2.2; omega) (hne rfl)

theorem Inv.release (hi : Inv W R s) (hget : s.threads.get i = some (.turn seq page)) :
    Inv W (R ++ [(seq, page)]) { s.leave i with lastRead_ := seq } := by
  obtain ⟨A, B, hsplit, -, hremove, hapart, ⟨hasks, hle, hmem, hnext⟩, hfits⟩ := hi.split hget
  have hthreads : (s.leave i).threads = A ++ B := hremove
  have hcount := hi.count
  have hstart := hi.start
  refine ⟨?_, fun x hx => ?_, ?_, hle, hi.claimed, hasks.2, fun q h1 h2 => ?_, hi.once,
    fun x hx => ?_, ?_, ?_, fun x hx => ?_⟩
  · rw [hthreads]
    exact hapart.remove
  · rw [hthreads] at hx
    exact (hfits x hx).gave hnext ((hapart.other hx).2 seq rfl) _
  · dsimp only
    omega
  · exact hi.slots q (by dsimp only at h1; omega) h2
  · refine (hi.known_others hsplit rfl hx).imp_right ?_
    rintro ⟨y, hy, hyx⟩
    exact ⟨y, by rw [hthreads]; exact hy, hyx⟩
  · rw [List.map_append, hi.order, List.length_append, List.length_singleton, List.range_succ,
      List.map_append, List.map_singleton, List.map_singleton]
    congr 2
    show seq = ((R.length : ℕ) : ℤ)
    omega
  · dsimp only
    rw [List.length_append, List.length_singleton]
    push_cast
    omega
  · rcases List.mem_append.mp hx with hx | hx
    · exact hi.source x hx
    · rw [List.mem_singleton.mp hx]
      exact hmem

/-! ### Loads -/

section Loads
variable {o : BufferEvent D}

theorem Inv.enter (hi : Inv W R s) (hs : s.step (.enter i) = .ok (o, s')) :
    o = .quiet ∧ Inv W R s' := by
  dsimp only [LogPageBuffer.step] at hs
  split at hs
  · rename_i seq hget
    have hclaims : Claims s seq := hi.fits _ (Pool.mem_of_get hget)
    cases hs
    refine ⟨rfl, ?_⟩
    split
    · exact hi.goOn hget rfl rfl rfl hclaims
    · exact hi.goOn hget rfl rfl rfl ⟨hclaims, not_lt.mp ‹_›⟩
  · cases hs

theorem Inv.checkStop (hi : Inv W R s) (hs : s.step (.checkStop i) = .ok (o, s')) :
    o = .quiet ∧ Inv W R s' := by
  dsimp only [LogPageBuffer.step] at hs
  split at hs
  · rename_i seq hget
    cases hs
    refine ⟨rfl, ?_⟩
    split
    · exact hi.leave hget rfl
    · exact hi.goOn hget rfl rfl rfl (hi.fits _ (Pool.mem_of_get hget))
  · rename_i seq hget
    have hasks : Asks s seq := hi.fits _ (Pool.mem_of_get hget)
    cases hs
    refine ⟨rfl, ?_⟩
    split
    · exact hi.goOn hget rfl rfl rfl hasks
    · exact hi.goOn hget rfl rfl rfl hasks
  · cases hs

theorem Inv.finishWrite (hi : Inv W R s) (hs : s.step (.finishWrite i) = .ok (o, s')) :
    o = .quiet ∧ Inv W R s' := by
  dsimp only [LogPageBuffer.step] at hs
  split at hs
  · rename_i seq hget
    obtain ⟨hclaims, hroom, hslot⟩ : Fits W s (.written seq) := hi.fits _ (Pool.mem_of_get hget)
    cases hs
    refine ⟨rfl, ?_⟩
    split
    · exact hi
    · exact hi.goOn hget rfl rfl rfl ⟨hclaims, hroom, hslot, not_not.mp ‹_›⟩
  · cases hs

theorem Inv.awaitWrite (hi : Inv W R s) (hs : s.step (.awaitWrite i) = .ok (o, s')) :
    o = .quiet ∧ Inv W R s' := by
  dsimp only [LogPageBuffer.step] at hs
  split at hs
  · rename_i seq hget
    have hasks : Asks s seq := hi.fits _ (Pool.mem_of_get hget)
    cases hs
    refine ⟨rfl, ?_⟩
    split
    · exact hi.goOn hget rfl rfl rfl hasks
    · exact hi.goOn hget rfl rfl rfl ⟨hasks, not_lt.mp ‹_›⟩
  · cases hs

theorem Inv.loadWrote (hi : Inv W R s) (hs : s.step (.loadWrote i) = .ok (o, s')) :
    o = .quiet ∧ Inv W R s' := by
  dsimp only [LogPageBuffer.step] at hs
  split at hs
  · rename_i seq hget
    cases hs
    exact ⟨rfl, hi.goOn hget rfl rfl rfl (hi.fits _ (Pool.mem_of_get hget))⟩
  · cases hs

theorem Inv.empty (hi : Inv W R s) (hs : s.step (.empty i) = .ok (o, s')) :
    (o = .quiet ∨ o = .gaveNull) ∧ Inv W R s' := by
  dsimp only [LogPageBuffer.step] at hs
  split at hs
  · rename_i seq wrote hget
    split at hs
    · cases hs
      exact ⟨Or.inr rfl, hi.leave hget rfl⟩
    · cases hs
      exact ⟨Or.inl rfl, hi.goOn hget rfl rfl rfl (hi.fits _ (Pool.mem_of_get hget))⟩
  · cases hs

theorem Inv.load (hi : Inv W R s) (hs : s.step (.load i) = .ok (o, s')) :
    o = .quiet ∧ Inv W R s' := by
  dsimp only [LogPageBuffer.step] at hs
  split at hs
  · rename_i seq hget
    obtain ⟨hasks, hle⟩ : Fits W s (.ready seq) := hi.fits _ (Pool.mem_of_get hget)
    obtain ⟨page, hpage, hmem⟩ := hi.slots seq hasks.1 hle
    rw [hpage] at hs
    cases hs
    exact ⟨rfl, hi.goOn hget rfl rfl rfl ⟨hasks, hle, hmem⟩⟩
  · cases hs

theorem Inv.awaitTurn (hi : Inv W R s) (hs : s.step (.awaitTurn i) = .ok (o, s')) :
    o = .quiet ∧ Inv W R s' := by
  dsimp only [LogPageBuffer.step] at hs
  split at hs
  · rename_i seq page hget
    obtain ⟨hasks, hle, hmem⟩ : Fits W s (.loaded seq page) := hi.fits _ (Pool.mem_of_get hget)
    cases hs
    refine ⟨rfl, ?_⟩
    split
    · exact hi
    · exact hi.goOn hget rfl rfl rfl ⟨hasks, hle, hmem, not_not.mp ‹_›⟩
  · cases hs

end Loads

/-! ### Runs -/

theorem Inv.stop (hi : Inv W R s) : Inv W R { s with stop_ := true } :=
  ⟨hi.apart, fun x hx => (hi.fits x hx).congr rfl rfl le_rfl le_rfl rfl, hi.start, hi.behind,
    hi.claimed, hi.dispatched, hi.slots, hi.once, hi.known, hi.order, hi.count, hi.source⟩

/-- An access that writes and gives no page. -/
theorem Inv.unseen {a : BufferStep D} {o : BufferEvent D} (ho : o = .quiet ∨ o = .gaveNull)
    (hi : Inv W R s) : Inv (W ++ writes [(a, o)]) (R ++ reads [(a, o)]) s := by
  rcases ho with rfl | rfl <;> simpa [writes, reads] using hi

theorem Inv.quiet {a : BufferStep D} {o : BufferEvent D} (h : o = .quiet ∧ Inv W R s) :
    Inv (W ++ writes [(a, o)]) (R ++ reads [(a, o)]) s :=
  Inv.unseen (Or.inl h.1) h.2

/-- A step keeps the invariant. -/
theorem Inv.step {a : BufferStep D} {o : BufferEvent D} (hi : Inv W R s)
    (hs : s.step a = .ok (o, s')) : Inv (W ++ writes [(a, o)]) (R ++ reads [(a, o)]) s' := by
  cases a with
  | enter i => exact Inv.quiet (hi.enter hs)
  | checkStop i => exact Inv.quiet (hi.checkStop hs)
  | finishWrite i => exact Inv.quiet (hi.finishWrite hs)
  | awaitWrite i => exact Inv.quiet (hi.awaitWrite hs)
  | loadWrote i => exact Inv.quiet (hi.loadWrote hs)
  | empty i => exact Inv.unseen (hi.empty hs).1 (hi.empty hs).2
  | load i => exact Inv.quiet (hi.load hs)
  | awaitTurn i => exact Inv.quiet (hi.awaitTurn hs)
  | stop =>
    cases hs
    exact Inv.quiet ⟨rfl, hi.stop⟩
  | getWriteSeq i =>
    dsimp only [LogPageBuffer.step] at hs
    split at hs
    · cases hs
      exact Inv.quiet ⟨rfl, hi.getWriteSeq ‹_›⟩
    · cases hs
  | read i =>
    dsimp only [LogPageBuffer.step] at hs
    split at hs
    · cases hs
      exact Inv.quiet ⟨rfl, hi.read ‹_›⟩
    · cases hs
  | write i data =>
    dsimp only [LogPageBuffer.step] at hs
    split at hs
    · cases hs
      simpa [writes, reads] using hi.write ‹_› data
    · cases hs
  | publish i =>
    dsimp only [LogPageBuffer.step] at hs
    split at hs
    · cases hs
      exact Inv.quiet ⟨rfl, hi.publish ‹_›⟩
    · cases hs
  | release i =>
    dsimp only [LogPageBuffer.step] at hs
    split at hs
    · cases hs
      simpa [writes, reads] using hi.release ‹_›
    · cases hs

theorem inv_of_run {H : List (BufferStep D × BufferEvent D)}
    (hrun : Run step (fun _ _ => True) init H s) :
    Inv (writes H) (reads H) s := by
  induction hrun with
  | nil => exact inv_init
  | snoc _ _ hs ih =>
    have := ih.step hs
    rwa [writes, writes, ← List.filterMap_append, reads, reads, ← List.filterMap_append] at this

/-- In every run of any number of threads that write and read: the pages are read in the order of
    their numbers, from 0 on and without a gap; each is the page that was written under its number,
    which no other write has; and no slot is loaded that was not written. -/
theorem pages_read_in_order {H : List (BufferStep D × BufferEvent D)}
    (hrun : Run step (fun _ _ => True) init H s) :
    (reads H).map Prod.fst = (List.range (reads H).length).map Int.ofNat ∧
    (∀ x ∈ reads H, x ∈ writes H) ∧
    ((writes H).map Prod.fst).Nodup ∧ ∀ i, s.step (.load i) ≠ .error .deref := by
  have hi := inv_of_run hrun
  refine ⟨hi.order, hi.source, hi.once, fun i hs => ?_⟩
  dsimp only [LogPageBuffer.step] at hs
  split at hs
  · rename_i seq hget
    obtain ⟨hasks, hle⟩ : Fits (writes H) s (.ready seq) := hi.fits _ (Pool.mem_of_get hget)
    obtain ⟨page, hpage, -⟩ := hi.slots seq hasks.1 hle
    rw [hpage] at hs
    cases hs
  · cases hs

/-- Two threads write, the second one first; two read. -/
def twoWriters : List (BufferStep ℕ) :=
  [.getWriteSeq 0, .getWriteSeq 1, .read 2, .read 3, .enter 1, .write 1 9, .finishWrite 1, .enter 0,
    .awaitWrite 2, .write 0 7, .finishWrite 0, .publish 0, .finishWrite 1, .checkStop 2, .publish 1,
    .awaitWrite 3, .load 3, .awaitTurn 3, .awaitWrite 2, .load 2, .awaitTurn 2, .release 2,
    .awaitTurn 3, .release 3]

theorem pages_read_in_order_two :
    ∃ H : List (BufferStep ℕ × BufferEvent ℕ), reads H = [(0, 7), (1, 9)] ∧
    writes H = [(1, 9), (0, 7)] ∧ ∀ x ∈ reads H, x ∈ writes H := by
  have heval : (exec step init twoWriters).toOption.map (fun r => (reads (twoWriters.zip r.1),
      writes (twoWriters.zip r.1))) =
      some ([(0, 7), (1, 9)], [(1, 9), (0, 7)]) := by
    decide +kernel
  cases hex : exec step init twoWriters with
  | error e =>
    rw [hex] at heval
    cases heval
  | ok r =>
    rw [hex] at heval
    obtain ⟨hreads, hwrites⟩ := Prod.mk.inj (Option.some.inj heval)
    exact ⟨twoWriters.zip r.1, hreads, hwrites, (pages_read_in_order (Run.of_exec hex)).2.1⟩

end LogPageBuffer
end FrozenHot
