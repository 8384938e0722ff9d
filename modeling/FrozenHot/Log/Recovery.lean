import FrozenHot.Log.Pages
import FrozenHot.Schemes.Run
import FrozenHot.Schemes.Pool
import Mathlib.Data.List.Perm.Basic
import Mathlib.Data.List.Flatten

/-! A log file on the device (`spdk_logging_server.cc`, `spdk_logging_recovery.cc`).

    Clients put requests on a stack. A server takes the whole stack for one of its queues, copies it
    to pages, and sends them to the next pages of the device; the pages arrive one by one and in any
    order, and when all of them have arrived the requests are reported as completed. The recovery
    reads the pages of the log file until one does not begin with its number.

        addLog ─▶ submission_queue ─▶ leaders[i] ─▶ device ─▶ completion_queue
                                         │ send i    persist i j    │ complete i -/

namespace FrozenHot
open Schemes

def LOGGING_START_LPN : ℕ := 1

def MAX_LPN_FOR_LOGGING : ℕ := 2 * 2 ^ 20

/-- The pages of a buffer. -/
def pagesOf (PAGESIZE : ℕ) (buf : List UInt8) : List (List UInt8) :=
  (List.range (buf.length / PAGESIZE)).map fun i => (buf.drop (i * PAGESIZE)).take PAGESIZE

/-- A write that was sent: its requests, and where its pages go. -/
structure LogWrite where
  lpn : ℕ
  pages : List (List UInt8)
  batch : List (List UInt8)

structure LogServer where
  submission_queue : List (List UInt8)
  leaders : Pool LogWrite
  current_offset : ℕ
  device : ℕ → List UInt8
  completion_queue : List (List UInt8)

/-- A request of a client, a round of a server for a free queue, a page that arrives, and the end of
    a write. -/
inductive LogStep where
  | addLog (data : List UInt8)
  | send (i : ℕ)
  | persist (i j : ℕ)
  | complete (i : ℕ)

namespace LogServer

/-- A server starts on a device as it was left. -/
def init (device : ℕ → List UInt8) : LogServer := ⟨[], [], LOGGING_START_LPN, device, []⟩

section
variable (PAGESIZE : ℕ) (seq : UInt32)

/-- `MemCopy` and `SPDKWrite` for the requests on the stack. -/
def send (s : LogServer) (i : ℕ) : Except Fault LogServer := do
  let leader := s.submission_queue
  if leader = [] then return s
  let buf ← memCopy PAGESIZE seq leader
  let pages := pagesOf PAGESIZE buf
  let current_offset := s.current_offset + pages.length
  return { s with
    submission_queue := []
    leaders := s.leaders.add i ⟨s.current_offset, pages, leader⟩
    current_offset := if current_offset > MAX_LPN_FOR_LOGGING then LOGGING_START_LPN else
      current_offset }

/-- The page at `lpn`. -/
def store (device : ℕ → List UInt8) (lpn : ℕ) (page : List UInt8) : ℕ → List UInt8 :=
  fun x => if x = lpn then page else device x

/-- All pages of a write. -/
def storeAll (device : ℕ → List UInt8) : ℕ → List (List UInt8) → ℕ → List UInt8
  | _, [] => device
  | lpn, page :: pages => storeAll (store device lpn page) (lpn + 1) pages

def step (s : LogServer) : LogStep → Except Fault (Unit × LogServer)
  | .addLog data => return ((), { s with submission_queue := data :: s.submission_queue })
  | .send i => match s.leaders.get i with
    | some _ => throw .diverge
    | none => return ((), ← s.send PAGESIZE seq i)
  | .persist i j => match s.leaders.get i with
    | none => throw .diverge
    | some w => match w.pages[j]? with
      | none => throw .diverge
      | some page => return ((), { s with device := store s.device (w.lpn + j) page })
  | .complete i => match s.leaders.get i with
    | none => throw .diverge
    | some w => return ((), { s with
        leaders := s.leaders.remove i
        device := storeAll s.device w.lpn w.pages
        completion_queue := s.completion_queue ++ w.batch })

/-- `ReadFromSPDK` for the last log file: the pages from `lpn` on that begin with its number. -/
def readPages (device : ℕ → List UInt8) : ℕ → ℕ → Except Fault (List (List UInt8))
  | 0, _ => return []
  | n + 1, lpn => do
    let s ← decodeFixed32 (device lpn)
    if s = seq then return device lpn :: (← readPages device n (lpn + 1)) else return []

/-- The entries that are recovered after a stop. -/
def recover (s : LogServer) : Except Fault (List LogEntry) := do
  processData PAGESIZE (← readPages seq s.device MAX_LPN_FOR_LOGGING LOGGING_START_LPN)

/-- The page of a device does not begin with the number of the log file. -/
def Foreign (page : List UInt8) : Prop := ∃ n, decodeFixed32 page = .ok n ∧ n ≠ seq

/-- Requests are not empty, and the log does not go round. -/
def Allowed (s : LogServer) : LogStep → Prop
  | .addLog data => data ≠ []
  | .send _ => ∀ buf, memCopy PAGESIZE seq s.submission_queue = .ok buf →
      s.current_offset + buf.length / PAGESIZE ≤ MAX_LPN_FOR_LOGGING
  | _ => True

end

instance {β : Type} {x : Except Fault β} {P : β → Prop} [DecidablePred P] :
    Decidable (∀ b, x = .ok b → P b) :=
  match x with
  | .ok b => decidable_of_iff (P b) (by simp)
  | .error _ => .isTrue (by simp)

instance (PAGESIZE : ℕ) (seq : UInt32) (s : LogServer) : DecidablePred (Allowed PAGESIZE seq s)
  | .addLog data => inferInstanceAs (Decidable (data ≠ []))
  | .send _ => inferInstanceAs (Decidable (∀ buf,
      memCopy PAGESIZE seq s.submission_queue = .ok buf → _))
  | .persist _ _ | .complete _ => .isTrue trivial

/-- The requests that clients made. -/
def added (H : List (LogStep × Unit)) : List (List UInt8) :=
  H.filterMap fun
    | (.addLog data, _) => some data
    | _ => none

/-! ### The layout of the log -/

variable {PAGESIZE : ℕ} {seq : UInt32} {device₀ : ℕ → List UInt8} {s s' : LogServer}
    {log done : List LogWrite}
variable {w : LogWrite} {i j : ℕ}

/-- The pages of the writes, in the order of the device. -/
def layout (log : List LogWrite) : List (List UInt8) := log.flatMap LogWrite.pages

/-- The writes follow each other from page `a` on. -/
def Laid : ℕ → List LogWrite → Prop
  | _, [] => True
  | a, w :: log => w.lpn = a ∧ Laid (a + w.pages.length) log

theorem Laid.snoc :
    ∀ {log : List LogWrite} {a : ℕ}, Laid a log → w.lpn = a + (layout log).length →
    Laid a (log ++ [w])
  | [], a, _, hw => ⟨by simpa [layout] using hw, trivial⟩
  | v :: log, a, h, hw => by
    refine ⟨h.1, Laid.snoc h.2 ?_⟩
    rw [hw, layout, List.flatMap_cons, List.length_append]
    exact (Nat.add_assoc _ _ _).symm

theorem Laid.le : ∀ {log : List LogWrite} {a : ℕ}, Laid a log → w ∈ log → a ≤ w.lpn
  | v :: log, a, h, hw => by
    rcases List.mem_cons.mp hw with rfl | hw
    · exact h.1.ge
    · exact (Nat.le_add_right _ _).trans (Laid.le h.2 hw)

/-- The pages of a write in the layout. -/
theorem Laid.get : ∀ {log : List LogWrite} {a : ℕ}, Laid a log → w ∈ log → j < w.pages.length →
    a ≤ w.lpn + j ∧ (layout log)[w.lpn + j - a]? = w.pages[j]?
  | v :: log, a, h, hw, hj => by
    obtain ⟨hv, hlog⟩ := h
    rw [layout, List.flatMap_cons]
    rcases List.mem_cons.mp hw with rfl | hw
    · refine ⟨by omega, ?_⟩
      rw [hv, Nat.add_sub_cancel_left, List.getElem?_append_left hj]
    · obtain ⟨hle, hget⟩ := Laid.get hlog hw hj
      refine ⟨by omega, ?_⟩
      rw [List.getElem?_append_right (by omega), ← hget, layout]
      congr 1
      omega

/-- Every page of the layout is of a write. -/
theorem Laid.exists : ∀ {log : List LogWrite} {a k : ℕ}, Laid a log → k < (layout log).length →
    ∃ w ∈ log, ∃ j, j < w.pages.length ∧ a + k = w.lpn + j
  | [], _, _, _, hk => absurd hk (Nat.not_lt_zero _)
  | v :: log, a, k, h, hk => by
    obtain ⟨hv, hlog⟩ := h
    rw [layout, List.flatMap_cons, List.length_append] at hk
    by_cases hlt : k < v.pages.length
    · exact ⟨v, by simp, k, hlt, by omega⟩
    · obtain ⟨w, hw, j, hj, heq⟩ :=
        Laid.exists (k := k - v.pages.length) hlog (by rw [layout]; omega)
      exact ⟨w, by simp [hw], j, hj, by omega⟩

/-! ### What is on the device -/

/-- A page of the device is as it was at the start, or the page of the layout. -/
def Agrees (device₀ : ℕ → List UInt8) (log : List LogWrite) (device : ℕ → List UInt8) : Prop :=
  ∀ x, device x = device₀ x ∨ LOGGING_START_LPN ≤ x ∧ (layout log)[x - LOGGING_START_LPN]? =
    some (device x)

/-- The pages of a write have arrived. -/
def Arrived (device : ℕ → List UInt8) (w : LogWrite) : Prop :=
  ∀ j, j < w.pages.length → w.pages[j]? = some (device (w.lpn + j))

theorem Agrees.mono {device : ℕ → List UInt8} (h : Agrees device₀ log device) (w : LogWrite) :
    Agrees device₀ (log ++ [w]) device := by
  intro x
  refine (h x).imp_right fun ⟨hle, hx⟩ => ⟨hle, ?_⟩
  have hlt := (List.getElem?_eq_some_iff.mp hx).1
  rw [layout, List.flatMap_append, ← layout, List.getElem?_append_left hlt]
  exact hx

/-- A page of the layout is stored. -/
theorem Agrees.store {device : ℕ → List UInt8} {x : ℕ} {page : List UInt8}
    (h : Agrees device₀ log device) (hle : LOGGING_START_LPN ≤ x)
    (hx : (layout log)[x - LOGGING_START_LPN]? = some page) :
    Agrees device₀ log (store device x page) := by
  intro y
  by_cases hy : y = x
  · rw [LogServer.store, if_pos hy, hy]
    exact Or.inr ⟨hle, hx⟩
  · rw [LogServer.store, if_neg hy]
    exact h y

theorem Arrived.store {device : ℕ → List UInt8} {x : ℕ} {page : List UInt8}
    (hlaid : Laid LOGGING_START_LPN log) (hw : w ∈ log) (h : Arrived device w)
    (hx : (layout log)[x - LOGGING_START_LPN]? = some page) :
    Arrived (store device x page) w := by
  intro j hj
  by_cases hy : w.lpn + j = x
  · rw [LogServer.store, if_pos hy, ← (hlaid.get hw hj).2, hy]
    exact hx
  · rw [LogServer.store, if_neg hy]
    exact h j hj

theorem storeAll_lt : ∀ {pages : List (List UInt8)} {device : ℕ → List UInt8} {lpn x : ℕ}, x < lpn →
    storeAll device lpn pages x = device x
  | [], _, _, _, _ => rfl
  | page :: pages, device, lpn, x, hx => by
    rw [storeAll, storeAll_lt (Nat.lt_succ_of_lt hx), LogServer.store, if_neg hx.ne]

/-- The pages that are left of a write are stored. -/
theorem storeAll_keeps (hlaid : Laid LOGGING_START_LPN log) :
    ∀ (pages : List (List UInt8)) (device : ℕ → List UInt8) (lpn : ℕ),
    LOGGING_START_LPN ≤ lpn → (∀ j,
      j < pages.length → (layout log)[lpn + j - LOGGING_START_LPN]? = pages[j]?) →
    Agrees device₀ log device → Agrees device₀ log (storeAll device lpn pages) ∧
      (∀ w ∈ log, Arrived device w → Arrived (storeAll device lpn pages) w) ∧
      ∀ j, j < pages.length → pages[j]? = some (storeAll device lpn pages (lpn + j))
  | [], device, lpn, _, _, h => ⟨h, fun _ _ h => h, fun j hj => absurd hj (Nat.not_lt_zero _)⟩
  | page :: pages, device, lpn, hle, hget, h => by
    have hpage := hget 0 (by simp)
    rw [Nat.add_zero] at hpage
    obtain ⟨h1, h2, h3⟩ := storeAll_keeps hlaid pages (store device lpn page) (lpn + 1)
      (Nat.le_succ_of_le hle) (fun j hj => by
        have := hget (j + 1) (by simpa using hj)
        rwa [show lpn + (j + 1) = lpn + 1 + j by omega] at this) (h.store hle hpage)
    refine ⟨h1, fun w hw ha => h2 w hw (ha.store hlaid hw hpage), fun j hj => ?_⟩
    cases j with
    | zero =>
      rw [storeAll, storeAll_lt (by omega), LogServer.store, if_pos (Nat.add_zero _)]
      rfl
    | succ j =>
      have := h3 j (by simpa using hj)
      rw [storeAll, show lpn + (j + 1) = lpn + 1 + j by omega]
      exact this

/-! ### The invariant -/

/-- A batch and its pages. -/
structure Copied (PAGESIZE : ℕ) (seq : UInt32) (w : LogWrite) : Prop where
  some_request : w.batch ≠ []
  some_data : ∀ data ∈ w.batch, data ≠ []
  copy : memCopy PAGESIZE seq w.batch = .ok w.pages.flatten
  whole : Whole PAGESIZE (encodeFixed32 seq) w.pages

/-- After the requests `A`: the writes that were sent are laid out in a row, those that are done are
    on the device, and no request is lost or doubled. -/
structure Inv (PAGESIZE : ℕ) (seq : UInt32) (device₀ : ℕ → List UInt8) (A : List (List UInt8))
    (s : LogServer) (log done : List LogWrite) : Prop where
  queued : ∀ data ∈ s.submission_queue, data ≠ []
  distinct : s.leaders.Distinct
  laid : Laid LOGGING_START_LPN log
  offset : s.current_offset = LOGGING_START_LPN + (layout log).length
  room : s.current_offset ≤ MAX_LPN_FOR_LOGGING
  copied : ∀ w ∈ log, Copied PAGESIZE seq w
  sent : (done ++ s.leaders.map Prod.snd).Perm log
  agrees : Agrees device₀ log s.device
  arrived : ∀ w ∈ done, Arrived s.device w
  completed : s.completion_queue = done.flatMap LogWrite.batch
  complete : (log.flatMap LogWrite.batch ++ s.submission_queue).Perm A

theorem inv_init : Inv PAGESIZE seq device₀ [] (init device₀) [] [] where
  queued := by simp [init]
  distinct := List.nodup_nil
  laid := trivial
  offset := rfl
  room := show LOGGING_START_LPN ≤ MAX_LPN_FOR_LOGGING by decide
  copied := by simp
  sent := .nil
  agrees := fun _ => Or.inl rfl
  arrived := by simp
  completed := rfl
  complete := .nil

/-- Whole pages are the pages of their bytes. -/
theorem pagesOf_flatten {h : List UInt8} (hP : 8 ≤ PAGESIZE) :
    ∀ {ps : List (List UInt8)}, Whole PAGESIZE h ps →
    pagesOf PAGESIZE ps.flatten = ps
  | [], _ => by simp [pagesOf]
  | p :: ps, hps => by
    have hp := (hps p (by simp)).1
    have ih := pagesOf_flatten hP (show Whole PAGESIZE h ps from fun q hq => hps q (by simp [hq]))
    have hlen : (p :: ps).flatten.length / PAGESIZE = ps.flatten.length / PAGESIZE + 1 := by
      rw [List.flatten_cons, List.length_append, hp, Nat.add_div_left _ (by omega)]
    rw [pagesOf, hlen, List.range_succ_eq_map, List.map_cons, List.map_map, List.flatten_cons]
    congr 1
    · rw [Nat.zero_mul, List.drop_zero, List.take_left' hp]
    · rw [pagesOf] at ih
      refine (List.map_congr_left fun i _ => ?_).trans ih
      simp only [Function.comp_apply]
      rw [Nat.succ_mul, Nat.add_comm, ← List.drop_drop, List.drop_left' hp]

variable {A : List (List UInt8)}

theorem Inv.addLog {data : List UInt8} (hi : Inv PAGESIZE seq device₀ A s log done)
    (hdata : data ≠ []) :
    Inv PAGESIZE seq device₀ (A ++ [data]) { s with submission_queue := data :: s.submission_queue }
    log done := by
  refine ⟨?_, hi.distinct, hi.laid, hi.offset, hi.room, hi.copied, hi.sent, hi.agrees, hi.arrived,
    hi.completed, ?_⟩
  · intro d hd
    rcases List.mem_cons.mp hd with rfl | hd
    · exact hdata
    · exact hi.queued d hd
  · calc (log.flatMap LogWrite.batch ++ data :: s.submission_queue).Perm
          (data :: (log.flatMap LogWrite.batch ++ s.submission_queue)) := List.perm_middle
      _ |>.Perm (data :: A) := hi.complete.cons data
      _ |>.Perm (A ++ [data]) := (List.perm_append_singleton data A).symm

theorem Inv.send (hP : 8 ≤ PAGESIZE) (hi : Inv PAGESIZE seq device₀ A s log done)
    (hfree : s.leaders.get i = none) (hroom : Allowed PAGESIZE seq s (.send i))
    (hs : s.send PAGESIZE seq i = .ok s') : ∃ log', Inv PAGESIZE seq device₀ A s' log' done := by
  unfold LogServer.send at hs
  dsimp only at hs
  split at hs
  · cases hs
    exact ⟨log, hi⟩
  · rename_i hne
    obtain ⟨buf, hcopy, hs⟩ := bind_eq_ok.mp hs
    obtain ⟨⟨ps, hps, rfl⟩, -⟩ := memCopy_spec hP hne hi.queued hcopy
    have hpages : pagesOf PAGESIZE ps.flatten = ps := pagesOf_flatten hP hps
    have hlen : ps.flatten.length / PAGESIZE = ps.length := by
      rw [← congrArg List.length hpages, pagesOf, List.length_map, List.length_range]
    have hfits := hroom _ hcopy
    rw [hlen] at hfits
    rw [hpages, if_neg (not_lt.mpr hfits)] at hs
    cases hs
    have hfree' := Pool.notMem_of_get_none hi.distinct hfree
    refine ⟨log ++ [⟨s.current_offset, ps, s.submission_queue⟩], by simp,
      List.nodup_cons.mpr ⟨hfree', hi.distinct⟩, hi.laid.snoc hi.offset, ?_, hfits, fun w hw => ?_,
      ?_, hi.agrees.mono _, hi.arrived, hi.completed, ?_⟩
    · dsimp only
      rw [hi.offset, layout, layout, List.flatMap_append, List.length_append, Nat.add_assoc]
      simp
    · rcases List.mem_append.mp hw with hw | hw
      · exact hi.copied w hw
      · rw [List.mem_singleton.mp hw]
        exact ⟨hne, hi.queued, hcopy, hps⟩
    · exact (List.perm_middle.trans (hi.sent.cons _)).trans (List.perm_append_singleton _ log).symm
    · simpa [List.flatMap_append] using hi.complete

theorem Inv.mem_log (hi : Inv PAGESIZE seq device₀ A s log done) (hw : s.leaders.get i = some w) :
    w ∈ log :=
  hi.sent.subset (List.mem_append_right _ (List.mem_map_of_mem (Pool.mem_of_get hw)))

theorem Inv.persist {page : List UInt8} (hi : Inv PAGESIZE seq device₀ A s log done)
    (hw : s.leaders.get i = some w) (hpage : w.pages[j]? = some page) :
    Inv PAGESIZE seq device₀ A { s with device := store s.device (w.lpn + j) page } log done := by
  obtain ⟨hle, hget⟩ := hi.laid.get (hi.mem_log hw) (List.getElem?_eq_some_iff.mp hpage).1
  rw [hpage] at hget
  exact ⟨hi.queued, hi.distinct, hi.laid, hi.offset, hi.room, hi.copied, hi.sent,
    hi.agrees.store hle hget, fun v hv => (hi.arrived v hv).store hi.laid
    (hi.sent.subset (List.mem_append_left _ hv)) hget, hi.completed, hi.complete⟩

theorem Inv.complete_write (hi : Inv PAGESIZE seq device₀ A s log done)
    (hw : s.leaders.get i = some w) :
    Inv PAGESIZE seq device₀ A { s with
        leaders := s.leaders.remove i
        device := storeAll s.device w.lpn w.pages
        completion_queue := s.completion_queue ++ w.batch } log (done ++ [w]) := by
  obtain ⟨B, C, hsplit, hnot, -, hremove⟩ := Pool.split hi.distinct hw
  have hlog := hi.mem_log hw
  obtain ⟨hagrees, hkeeps, hall⟩ := storeAll_keeps hi.laid w.pages s.device w.lpn (hi.laid.le hlog)
    (fun j hj => (hi.laid.get hlog hj).2) hi.agrees
  have hremove' : s.leaders.remove i = B ++ C := hremove
  refine ⟨hi.queued, ?_, hi.laid, hi.offset, hi.room, hi.copied, ?_, hagrees, fun v hv => ?_, ?_,
    hi.complete⟩
  · have hd := hi.distinct
    rw [hsplit] at hd
    dsimp only
    rw [hremove']
    exact (Pool.distinct_middle.mp hd).2
  · have hsent := hi.sent
    rw [hsplit, List.map_append, List.map_cons] at hsent
    dsimp only
    rw [hremove', List.map_append, List.append_assoc, List.singleton_append]
    exact (List.Perm.append_left done List.perm_middle.symm).trans hsent
  · rcases List.mem_append.mp hv with hv | hv
    · exact hkeeps v (hi.sent.subset (List.mem_append_left _ hv)) (hi.arrived v hv)
    · rw [List.mem_singleton.mp hv]
      exact hall
  · simp [hi.completed]

/-- A step keeps the invariant. -/
theorem Inv.step {x : LogStep} {o : Unit} (hP : 8 ≤ PAGESIZE)
    (hi : Inv PAGESIZE seq device₀ A s log done) (hx : Allowed PAGESIZE seq s x)
    (hs : s.step PAGESIZE seq x = .ok (o, s')) :
    ∃ log' done', Inv PAGESIZE seq device₀ (A ++ added [(x, o)]) s' log' done' := by
  cases x with
  | addLog data =>
    cases hs
    exact ⟨log, done, hi.addLog hx⟩
  | send i =>
    dsimp only [LogServer.step] at hs
    split at hs
    · cases hs
    · rename_i hfree
      obtain ⟨s₁, hsend, hs⟩ := bind_eq_ok.mp hs
      cases hs
      obtain ⟨log', hi'⟩ := hi.send hP hfree hx hsend
      exact ⟨log', done, by simpa [added] using hi'⟩
  | persist i j =>
    dsimp only [LogServer.step] at hs
    split at hs
    · cases hs
    · rename_i w hw
      split at hs
      · cases hs
      · rename_i page hpage
        cases hs
        exact ⟨log, done, by simpa [added] using hi.persist hw hpage⟩
  | complete i =>
    dsimp only [LogServer.step] at hs
    split at hs
    · cases hs
    · rename_i w hw
      cases hs
      exact ⟨log, done ++ [w], by simpa [added] using hi.complete_write hw⟩

theorem inv_of_run {H : List (LogStep × Unit)} (hP : 8 ≤ PAGESIZE)
    (hrun : Run (step PAGESIZE seq) (Allowed PAGESIZE seq) (init device₀) H s) :
    ∃ log done, Inv PAGESIZE seq device₀ (added H) s log done := by
  induction hrun with
  | nil => exact ⟨[], [], inv_init⟩
  | snoc _ hx hs ih =>
    obtain ⟨log, done, hi⟩ := ih
    obtain ⟨log', done', hi'⟩ := hi.step hP hx hs
    exact ⟨log', done', by rwa [added, List.filterMap_append]⟩

/-! ### What is recovered -/

/-- The pages are read up to the first that does not begin with the number of the log file. -/
theorem readPages_eq {device : ℕ → List UInt8} :
    ∀ {ps : List (List UInt8)} {n a : ℕ}, ps.length < n →
    Whole PAGESIZE (encodeFixed32 seq) ps → (∀ k, k < ps.length → ps[k]? = some (device (a + k))) →
    Foreign seq (device (a + ps.length)) → readPages seq device n a = .ok ps
  | [], n + 1, a, _, _, _, hend => by
    obtain ⟨number, hdec, hne⟩ := hend
    rw [List.length_nil, Nat.add_zero] at hdec
    rw [readPages, hdec, ok_bind, if_neg hne]
    rfl
  | p :: ps, n + 1, a, hn, hps, hget, hend => by
    have hp : device a = p := (Option.some.inj (hget 0 (by simp))).symm
    obtain ⟨t, ht⟩ := (hps p (by simp)).2
    have ih := readPages_eq (a := a + 1) (by simpa using hn)
      (show Whole PAGESIZE (encodeFixed32 seq) ps from fun q hq => hps q (by simp [hq]))
          (fun k hk => by
        have := hget (k + 1) (by simpa using hk)
        rwa [List.getElem?_cons_succ, show a + (k + 1) = a + 1 + k by omega] at this) (by
        rwa [List.length_cons, show a + (ps.length + 1) = a + 1 + ps.length by omega] at hend)
    rw [readPages, hp, ← ht, decode_encode, ok_bind, if_pos rfl, ih]
    rfl

theorem Inv.whole {log done : List LogWrite} (hi : Inv PAGESIZE seq device₀ A s log done) :
    Whole PAGESIZE (encodeFixed32 seq) (layout log) := by
  intro p hp
  obtain ⟨w, hw, hpw⟩ := List.mem_flatMap.mp hp
  exact (hi.copied w hw).whole p hpw

/-- When all writes are done, the recovery reads the pages of the log and stops behind them. -/
theorem Inv.readPages_eq {log done : List LogWrite} (hi : Inv PAGESIZE seq device₀ A s log done)
    (hdevice : ∀ lpn, LOGGING_START_LPN ≤ lpn → Foreign seq (device₀ lpn))
    (hdone : ∀ w ∈ log, w ∈ done) :
    readPages seq s.device MAX_LPN_FOR_LOGGING LOGGING_START_LPN = .ok (layout log) := by
  have hoffset := hi.offset
  have hroom := hi.room
  have hstart : 0 < LOGGING_START_LPN := by decide
  refine LogServer.readPages_eq (by omega) hi.whole (fun k hk => ?_) ?_
  · obtain ⟨w, hw, j, hj, heq⟩ := hi.laid.exists hk
    rw [heq, ← hi.arrived w (hdone w hw) j hj, ← (hi.laid.get hw hj).2, ← heq,
      Nat.add_sub_cancel_left]
  · -- the page behind the log is as it was
    have hlast := (hi.agrees (LOGGING_START_LPN + (layout log).length)).resolve_right (by
      rintro ⟨-, h⟩
      rw [Nat.add_sub_cancel_left, List.getElem?_eq_none le_rfl] at h
      cases h)
    rw [hlast]
    exact hdevice _ (Nat.le_add_right _ _)

theorem Inv.written {log done : List LogWrite} (hi : Inv PAGESIZE seq device₀ A s log done) :
    Written PAGESIZE (log.map fun w => (seq, w.batch)) (log.map fun w => w.pages.flatten) := by
  refine List.forall₂_map_left_iff.mpr
    (List.forall₂_map_right_iff.mpr (List.forall₂_same.mpr fun w hw => ?_))
  obtain ⟨hne, hdata, hcopy, -⟩ := hi.copied w hw
  exact ⟨hne, hdata, hcopy⟩

/-- In every run of clients and servers, with any number of queues and the pages arriving in any
    order, on a device that has no page of the log's number to begin with: when no write is in
    flight, the recovery returns the completed requests, each once and under the number of the log
    file, and the requests that were not completed are still on the stack. -/
theorem recovery_returns_completed {H : List (LogStep × Unit)} (hP : 8 ≤ PAGESIZE)
    (hdevice : ∀ lpn, LOGGING_START_LPN ≤ lpn → Foreign seq (device₀ lpn))
    (hrun : Run (step PAGESIZE seq) (Allowed PAGESIZE seq) (init device₀) H s)
    (hquiet : s.leaders = []) :
    (∃ es, s.recover PAGESIZE seq = .ok es ∧ (es.map LogEntry.data_).Perm s.completion_queue ∧
      ∀ e ∈ es, e.log_tag_seq = seq) ∧
      (s.completion_queue ++ s.submission_queue).Perm (added H) := by
  obtain ⟨log, done, hi⟩ := inv_of_run hP hrun
  have hdone : done.Perm log := by
    have := hi.sent
    rwa [hquiet, List.map_nil, List.append_nil] at this
  have hbatches : (log.flatMap LogWrite.batch).Perm s.completion_queue := by
    rw [hi.completed]
    exact (hdone.symm.flatMap_right _)
  have hread := hi.readPages_eq hdevice fun w hw => hdone.symm.subset hw
  have hflat : (layout log).flatten = (log.map fun w => w.pages.flatten).flatten := by
    rw [layout, List.flatMap, List.flatten_flatten, List.map_map]
    rfl
  obtain ⟨es, hes, hdata, htags⟩ := hi.written.processData hP hflat fun p hp => (hi.whole p hp).1
  rw [List.flatMap_map] at hdata
  refine ⟨⟨es, by rw [recover, hread, ok_bind, hes], hdata ▸ hbatches, htags seq fun b hb => ?_⟩,
    ?_⟩
  · obtain ⟨w, -, rfl⟩ := List.mem_map.mp hb
    rfl
  · exact (hbatches.symm.append_right _).trans hi.complete

/-- Two queues; the second write, of two pages, arrives and is completed before the first one. -/
def twoQueues : List LogStep :=
  [.addLog [7, 7], .send 0, .addLog [1, 2, 3, 4, 5, 6, 7, 8, 9], .addLog [8], .send 1, .persist 1 1,
    .complete 1, .complete 0]

/-- A device with a page of an earlier log. -/
def used (lpn : ℕ) : List UInt8 :=
  if lpn = 4 then encodeFixed32 3 ++ (encodeFixed32 2 ++ [9, 9, 0, 0, 0, 0, 0, 0]) else
    List.replicate 16 0

theorem recovery_returns_completed_two : ∃ (os : List Unit) (s : LogServer) (es : List LogEntry),
    exec (step 16 5) (init used) twoQueues = .ok (os, s) ∧ s.completion_queue.length = 3 ∧
    s.recover 16 5 = .ok es ∧ (es.map LogEntry.data_).Perm s.completion_queue := by
  have heval : (exec (checked (Allowed 16 5) (step 16 5)) (init used) twoQueues).toOption.map
      (fun r =>
      (r.2.leaders.isEmpty, r.2.completion_queue.length)) = some (true, 3) := by
    decide +kernel
  have hused : ∀ lpn, LOGGING_START_LPN ≤ lpn → Foreign 5 (used lpn) := by
    intro lpn _
    unfold used
    split
    · exact ⟨3, decode_encode _ _, by decide⟩
    · exact ⟨0, by decide, by decide⟩
  cases hex : exec (checked (Allowed 16 5) (step 16 5)) (init used) twoQueues with
  | error e =>
    rw [hex] at heval
    cases heval
  | ok r =>
    rw [hex] at heval
    simp only [Except.toOption, Option.map_some, Option.some.injEq, Prod.mk.injEq] at heval
    obtain ⟨⟨es, hes, hperm, -⟩, -⟩ :=
      recovery_returns_completed (by decide) hused (Run.of_checked hex)
      (List.isEmpty_iff.mp heval.1)
    exact ⟨r.1, r.2, es, exec_of_checked hex, heval.2, hes, hperm⟩

-- a request that was completed is lost, if the device stops while an earlier write is in flight
example : (exec (step 16 5) (init used) [.addLog [7], .send 0, .addLog [9], .send 1,
    .complete 1]).toOption.map
    (fun r => (r.2.completion_queue, (r.2.recover 16 5).toOption)) = some ([[9]], some []) := by
  decide +kernel

-- the recovery fails, if only the first page of a write has arrived
example : (exec (step 16 5) (init used) [.addLog [1, 2, 3, 4, 5, 6, 7, 8, 9], .send 0,
    .persist 0 0]).toOption.map
    (fun r => r.2.recover 16 5) = some (.error .assertion) := by
  decide +kernel

-- a page that is left of an earlier log of the same number is read with the log
example : (exec (step 16 3) (init used) [.addLog (List.replicate 28 7), .send 0,
    .complete 0]).toOption.map (fun r =>
    (r.2.recover 16 3).toOption.map (List.map LogEntry.data_)) =
    some (some [List.replicate 28 7, [9, 9]]) := by
  decide +kernel

end LogServer
end FrozenHot
