import FrozenHot.Schemes.Heap
import Mathlib.Algebra.Group.Nat.Defs
import Mathlib.Data.Nat.ModEq

/-! The pages of the log (`MemCopy` of `spdk_logging_server.cc`, `ProcessData` of
    `spdk_logging_recovery.cc`, `util.h`).

    A page begins with the number of its log file. Then come the requests, each with its size before
    it; the size is on one page, the data may go on over any number of pages. What is left of the
    last page of a batch is zero.

        seq | size data | size data .. | seq | .. data | 0 0 0 | seq | size data ..

    The reader takes a size of zero, or less than four bytes left, for the end of the page. It looks
    at the number of the log file only where a turn of its loop begins at the first size of a page,
    so that a batch behind a page with less than four bytes left is read under the number that was
    read before. -/

namespace FrozenHot
open Schemes

/-- `EncodeFixed32`. -/
def encodeFixed32 (value : UInt32) : List UInt8 :=
  [UInt8.ofNat value.toNat, UInt8.ofNat (value.toNat / 2 ^ 8), UInt8.ofNat (value.toNat / 2 ^ 16),
    UInt8.ofNat (value.toNat / 2 ^ 24)]

/-- `DecodeFixed32`. -/
def decodeFixed32 : List UInt8 → Except Fault UInt32
  | b₀ :: b₁ :: b₂ :: b₃ :: _ =>
    return UInt32.ofNat (b₀.toNat + 2 ^ 8 * b₁.toNat + 2 ^ 16 * b₂.toNat + 2 ^ 24 * b₃.toNat)
  | _ => throw .deref

@[simp] theorem length_encodeFixed32 (value : UInt32) : (encodeFixed32 value).length = 4 := rfl

theorem decode_encode (value : UInt32) (l : List UInt8) :
    decodeFixed32 (encodeFixed32 value ++ l) = .ok value := by
  have hlt : value.toNat < 2 ^ 32 := value.toNat_lt
  simp only [encodeFixed32, List.cons_append, decodeFixed32, pure_eq_ok, Except.ok.injEq]
  apply UInt32.toNat_inj.mp
  simp only [UInt32.toNat_ofNat', UInt8.toNat_ofNat']
  omega

theorem decode_zeros {n : ℕ} (hn : 4 ≤ n) (l : List UInt8) :
    decodeFixed32 (List.replicate n 0 ++ l) = .ok 0 := by
  obtain ⟨m, rfl⟩ := Nat.exists_eq_add_of_le hn
  rw [List.replicate_add]
  rfl

/-! ### The writer -/

def MAX_BUFFER_SIZE : ℕ := 1024 * 1024

/-- The buffer up to `offset`, and what is left of the page. -/
structure PageWriter where
  buf : List UInt8
  left_in_page : ℕ

namespace PageWriter

/-- A copy to the buffer that stays in the page. -/
def put (w : PageWriter) (data : List UInt8) : PageWriter :=
  ⟨w.buf ++ data, w.left_in_page - data.length⟩

section
variable (PAGESIZE : ℕ) (logfile_seq_ : UInt32)

/-- The rest of the page is set to zero. -/
def zeroFill (w : PageWriter) : PageWriter := ⟨w.buf ++ List.replicate w.left_in_page 0, PAGESIZE⟩

/-- The begin of a page. -/
def beginPage (w : PageWriter) : PageWriter :=
  if w.left_in_page = PAGESIZE then w.put (encodeFixed32 logfile_seq_) else w

/-- The loop over the data of a request, or what is left of it. -/
def copyData : ℕ → List UInt8 → PageWriter → Except Fault PageWriter
  | 0, _, _ => throw .diverge
  | fuel + 1, data, w =>
    if data.length = 0 then return w
    else
      let w := w.beginPage PAGESIZE logfile_seq_
      if data.length ≤ w.left_in_page then return w.put data
      else copyData fuel (data.drop w.left_in_page) ⟨w.buf ++ data.take w.left_in_page, PAGESIZE⟩

/-- A size is not split: with less than four bytes left it goes to the next page. -/
def startRecord (w : PageWriter) : PageWriter :=
  (if w.left_in_page < 4 then w.zeroFill PAGESIZE else w).beginPage PAGESIZE logfile_seq_

/-- The size of a request, and its data. -/
def writeRecord (w : PageWriter) (data : List UInt8) : Except Fault PageWriter :=
  copyData PAGESIZE logfile_seq_ (data.length + 2) data
    (w.put (encodeFixed32 (UInt32.ofNat data.length)))

/-- One request of a batch. -/
def writeRequest (w : PageWriter) (data : List UInt8) : Except Fault PageWriter := do
  assert (w.buf.length + data.length + 4 < MAX_BUFFER_SIZE - 4 * (MAX_BUFFER_SIZE / PAGESIZE))
  (w.startRecord PAGESIZE logfile_seq_).writeRecord PAGESIZE logfile_seq_ data

end
end PageWriter

/-- `MemCopy`: the pages of a batch of requests. -/
def memCopy (PAGESIZE : ℕ) (logfile_seq_ : UInt32) (batch : List (List UInt8)) :
    Except Fault (List UInt8) := do
  let w ← batch.foldlM (PageWriter.writeRequest PAGESIZE logfile_seq_) ⟨[], PAGESIZE⟩
  let w := if 0 < w.left_in_page ∧ w.left_in_page < PAGESIZE then w.zeroFill PAGESIZE else w
  assert (w.buf.length % PAGESIZE = 0)
  return w.buf

/-! ### The reader -/

structure LogEntry where
  size_ : ℕ
  data_ : List UInt8
  log_tag_seq : UInt32
  deriving DecidableEq

namespace LogEntry

def append (e : LogEntry) (data : List UInt8) : Except Fault LogEntry := do
  assert (e.data_.length + data.length ≤ e.size_)
  return { e with data_ := e.data_ ++ data }

def check (e : LogEntry) : Bool := e.data_.length = e.size_

end LogEntry

/-- `n` bytes at `page + pos`. -/
def bytesAt (page : List UInt8) (pos n : ℕ) : Except Fault (List UInt8) :=
  if pos + n ≤ page.length then return (page.drop pos).take n else throw .deref

/-- The page being read, the pages to come, and the entries so far. -/
structure PageReader where
  page : List UInt8
  pos : ℕ
  left : ℕ
  log_tag_seq : UInt32
  pages : List (List UInt8)
  entry_buffer_ : List LogEntry

namespace PageReader
variable (PAGESIZE : ℕ)

/-- `page_buffer_->Read()`. -/
def nextPage (r : PageReader) : Option PageReader :=
  match r.pages with
  | [] => none
  | page :: pages => some { r with page := page, pos := 4, left := PAGESIZE - 4, pages := pages }

/-- The loop over the pages that an entry goes on to, with `n` bytes to read. -/
def readRest (r : PageReader) :
    List (List UInt8) → LogEntry → ℕ → Except Fault (LogEntry × PageReader)
  | [], _, _ => throw .assertion
  | page :: pages, e, n =>
    if n ≤ PAGESIZE - 4 then do
      let e ← e.append (← bytesAt page 4 n)
      assert e.check
      return (e, { r with page := page, pos := 4 + n, left := PAGESIZE - 4 - n, pages := pages })
    else do
      let e ← e.append (← bytesAt page 4 (PAGESIZE - 4))
      readRest r pages e (n - (PAGESIZE - 4))

/-- An entry of the size that was read. -/
def readRecord (r : PageReader) (size : ℕ) : Except Fault PageReader := do
  let pos := r.pos + 4
  let left := r.left - 4
  let e : LogEntry := ⟨size, [], r.log_tag_seq⟩
  if size ≤ left then
    let e ← e.append (← bytesAt r.page pos size)
    assert e.check
    return { r with
      pos := pos + size, left := left - size, entry_buffer_ := r.entry_buffer_ ++ [e] }
  else
    let e ← e.append (← bytesAt r.page pos left)
    assert (pos + left = PAGESIZE)
    let er ← readRest PAGESIZE r r.pages e (size - left)
    return { er.2 with entry_buffer_ := er.2.entry_buffer_ ++ [er.1] }

/-- The number of the log file is read at the begin of a page. -/
def refresh (r : PageReader) : Except Fault PageReader := do
  if r.pos = 4 then return { r with log_tag_seq := ← decodeFixed32 r.page } else return r

/-- A turn of the loop of `ProcessData`; `none` for its end. -/
def turn (r : PageReader) : Except Fault (Option PageReader) := do
  let r ← r.refresh
  match if r.left < 4 then r.nextPage PAGESIZE else some r with
  | none => return none
  | some r =>
    let size ← decodeFixed32 (r.page.drop r.pos)
    if size = 0 then return r.nextPage PAGESIZE
    else return some (← r.readRecord PAGESIZE size.toNat)

def loop : ℕ → PageReader → Except Fault (List LogEntry)
  | 0, _ => throw .diverge
  | fuel + 1, r => do
    match ← r.turn PAGESIZE with
    | none => return r.entry_buffer_
    | some r => loop fuel r

end PageReader

/-- `ProcessData`: the entries of the pages that come until `Read` returns `nullptr`. -/
def processData (PAGESIZE : ℕ) : List (List UInt8) → Except Fault (List LogEntry)
  | [] => return []
  | page :: pages => PageReader.loop PAGESIZE ((page :: pages).flatten.length + 1)
      ⟨page, 4, PAGESIZE - 4, 0, pages, []⟩

/-! ### What is written is read

    What the writer puts behind any buffer is followed through the reader, whatever comes behind
    it. -/

section
variable {PAGESIZE : ℕ} {seq : UInt32} {w w' : PageWriter} {r r' : PageReader}
    {data F h : List UInt8}

theorem cut_append {p t x y : List UInt8} (heq : p ++ t = x ++ y) (hle : x.length ≤ p.length) :
    p.take x.length = x ∧ p.drop x.length ++ t = y := by
  constructor
  · have := congrArg (List.take x.length) heq
    rwa [List.take_append_of_le_length hle, List.take_left] at this
  · have := congrArg (List.drop x.length) heq
    rwa [List.drop_append_of_le_length hle, List.drop_left] at this

/-- Whole pages that begin with `h`. -/
def Whole (PAGESIZE : ℕ) (h : List UInt8) (ps : List (List UInt8)) : Prop :=
  ∀ p ∈ ps, p.length = PAGESIZE ∧ h <+: p

theorem Whole.snoc {ps : List (List UInt8)} {p : List UInt8} (hw : Whole PAGESIZE h ps)
    (hlen : p.length = PAGESIZE) (hp : h <+: p) : Whole PAGESIZE h (ps ++ [p]) := by
  intro q hq
  rcases List.mem_append.mp hq with hq | hq
  · exact hw q hq
  · rw [List.mem_singleton.mp hq]
    exact ⟨hlen, hp⟩

namespace PageWriter

/-- The buffer is made of whole pages. -/
def Bound (PAGESIZE : ℕ) (seq : UInt32) (w : PageWriter) : Prop :=
  w.left_in_page = PAGESIZE ∧ ∃ ps, Whole PAGESIZE (encodeFixed32 seq) ps ∧ w.buf = ps.flatten

/-- The last page of the buffer is begun. -/
def Begun (PAGESIZE : ℕ) (seq : UInt32) (w : PageWriter) : Prop :=
  ∃ ps cur, Whole PAGESIZE (encodeFixed32 seq) ps ∧ encodeFixed32 seq <+: cur ∧
    w.buf = ps.flatten ++ cur ∧
    cur.length + w.left_in_page = PAGESIZE

theorem bound_nil : Bound PAGESIZE seq ⟨[], PAGESIZE⟩ := ⟨rfl, [], by simp [Whole], rfl⟩

theorem Bound.begin {b : List UInt8} (hb : Bound PAGESIZE seq ⟨b, PAGESIZE⟩) (hP : 8 ≤ PAGESIZE) :
    Begun PAGESIZE seq ⟨b ++ encodeFixed32 seq, PAGESIZE - 4⟩ := by
  obtain ⟨-, ps, hps, rfl⟩ := hb
  exact ⟨ps, encodeFixed32 seq, hps, List.prefix_rfl,
    rfl, by simp only [length_encodeFixed32]; omega⟩

theorem Begun.left_le (hb : Begun PAGESIZE seq w) : w.left_in_page + 4 ≤ PAGESIZE := by
  obtain ⟨ps, cur, -, hpre, -, hlen⟩ := hb
  have := hpre.length_le
  rw [length_encodeFixed32] at this
  omega

theorem Begun.put (hb : Begun PAGESIZE seq w) (hle : data.length ≤ w.left_in_page) :
    Begun PAGESIZE seq (w.put data) := by
  obtain ⟨ps, cur, hps, hpre, hbuf, hlen⟩ := hb
  refine ⟨ps, cur ++ data, hps, hpre.trans (List.prefix_append _ _), ?_, ?_⟩
  · rw [PageWriter.put, hbuf, List.append_assoc]
  · simp only [PageWriter.put, List.length_append]
    omega

theorem Begun.fill (hb : Begun PAGESIZE seq w) (hle : data.length = w.left_in_page) :
    Bound PAGESIZE seq ⟨w.buf ++ data, PAGESIZE⟩ := by
  obtain ⟨ps, cur, hps, hpre, hbuf, hlen⟩ := hb
  refine ⟨rfl, ps ++ [cur ++ data], hps.snoc ?_ (hpre.trans (List.prefix_append _ _)), ?_⟩
  · rw [List.length_append]
    omega
  · simp [hbuf]

end PageWriter

namespace PageReader

/-- The reader is in a page with `l` bytes left, and `F` is ahead. -/
structure Reads (PAGESIZE : ℕ) (r : PageReader) (l : ℕ) (F : List UInt8) : Prop where
  page : r.page.length = PAGESIZE
  pos : r.pos + r.left = PAGESIZE
  begun : 4 ≤ r.pos
  left : r.left = l
  pages : ∀ p ∈ r.pages, p.length = PAGESIZE
  ahead : r.page.drop r.pos ++ r.pages.flatten = F

variable {l : ℕ}

theorem Reads.length (hr : Reads PAGESIZE r l F) : (r.page.drop r.pos).length = l := by
  have := hr.pos
  have := hr.left
  rw [List.length_drop, hr.page]
  omega

/-- The pages ahead begin with a page. -/
theorem first_page {pages : List (List UInt8)} {x : List UInt8}
    (hpages : ∀ p ∈ pages, p.length = PAGESIZE) (hx : x ≠ []) (hle : x.length ≤ PAGESIZE)
    (hahead : pages.flatten = x ++ F) :
    ∃ p ps, pages = p :: ps ∧ p.length = PAGESIZE ∧ (∀ q ∈ ps, q.length = PAGESIZE) ∧
      p.take x.length = x ∧
      p.drop x.length ++ ps.flatten = F := by
  cases pages with
  | nil => exact absurd (List.append_eq_nil_iff.mp hahead.symm).1 hx
  | cons p ps =>
    have hp := hpages p (by simp)
    rw [List.flatten_cons] at hahead
    obtain ⟨h1, h2⟩ := cut_append hahead (by omega)
    exact ⟨p, ps, rfl, hp, fun q hq => hpages q (by simp [hq]), h1, h2⟩

/-- Behind what is left of the page comes the begin of the next one. -/
theorem Reads.next {pad : List UInt8} (hr : Reads PAGESIZE r l (pad ++ (h ++ F)))
    (hpad : pad.length = l) (hh : h.length = 4) (hP : 8 ≤ PAGESIZE) :
    ∃ r', r.nextPage PAGESIZE = some r' ∧ Reads PAGESIZE r' (PAGESIZE - 4) F ∧ r'.pos = 4 ∧
      h <+: r'.page ∧
      r'.log_tag_seq = r.log_tag_seq ∧ r'.entry_buffer_ = r.entry_buffer_ := by
  have hflat : r.pages.flatten = h ++ F := (List.append_inj hr.ahead (hr.length.trans hpad.symm)).2
  have hne : h ≠ [] := by
    rintro rfl
    cases hh
  obtain ⟨p, ps, hpages, hp, hps, htake, hdrop⟩ := first_page hr.pages hne (by omega) hflat
  rw [hh] at htake hdrop
  refine ⟨{ r with page := p, pos := 4, left := PAGESIZE - 4, pages := ps }, ?_,
    ⟨hp, ?_, le_rfl, rfl, hps, hdrop⟩, rfl, ?_, rfl, rfl⟩
  · rw [nextPage, hpages]
  · show 4 + (PAGESIZE - 4) = PAGESIZE
    omega
  · rw [← htake]
    exact List.take_prefix _ _

theorem bytesAt_eq {page : List UInt8} {pos n : ℕ} (hle : pos + n ≤ page.length) :
    bytesAt page pos n = .ok ((page.drop pos).take n) := if_pos hle

theorem append_eq {e : LogEntry} (hle : e.data_.length + data.length ≤ e.size_) :
    e.append data = .ok { e with data_ := e.data_ ++ data } := by
  simp [LogEntry.append, hle]

/-- The reader takes `data` for its next entry; then `l` bytes are left in the page, and `F` is
    ahead. -/
def Takes (PAGESIZE : ℕ) (r : PageReader) (data : List UInt8) (l : ℕ) (F : List UInt8) : Prop :=
  ∃ size r', decodeFixed32 (r.page.drop r.pos) = .ok size ∧ size ≠ 0 ∧
    r.readRecord PAGESIZE size.toNat = .ok r' ∧ Reads PAGESIZE r' l F ∧ r'.pos ≠ 4 ∧
    r'.log_tag_seq = r.log_tag_seq ∧
      r'.entry_buffer_ = r.entry_buffer_ ++ [⟨data.length, data, r.log_tag_seq⟩]

/-- A size ahead. -/
theorem Reads.size {size : UInt32} (hr : Reads PAGESIZE r l (encodeFixed32 size ++ F))
    (hroom : 4 ≤ l) :
    decodeFixed32 (r.page.drop r.pos) = .ok size ∧
    r.page.drop (r.pos + 4) ++ r.pages.flatten = F := by
  obtain ⟨htake, hdrop⟩ := cut_append hr.ahead
    (by rw [hr.length, length_encodeFixed32]; exact hroom)
  rw [length_encodeFixed32, List.drop_drop] at hdrop
  refine ⟨?_, hdrop⟩
  rw [← List.take_append_drop (encodeFixed32 size).length (r.page.drop r.pos), htake, decode_encode]

theorem toNat_size (hsize : data.length < 2 ^ 32) :
    (UInt32.ofNat data.length).toNat = data.length :=
  UInt32.toNat_ofNat_of_lt' (by rw [UInt32.size]; omega)

theorem size_ne_zero (hne : data ≠ []) (hsize : data.length < 2 ^ 32) :
    UInt32.ofNat data.length ≠ 0 := by
  intro h
  have htoNat := toNat_size hsize
  rw [h] at htoNat
  exact (List.length_pos_iff.mpr hne).ne htoNat

/-- A record that ends on the page. -/
theorem Reads.takes (hne : data ≠ []) (hsize : data.length < 2 ^ 32) (hfit : data.length + 4 ≤ l)
    (hr : Reads PAGESIZE r l (encodeFixed32 (UInt32.ofNat data.length) ++ (data ++ F))) :
    Takes PAGESIZE r data (l - 4 - data.length) F := by
  obtain ⟨hdec, hahead⟩ := hr.size (by omega)
  have hleft := hr.left
  have hsum := hr.pos
  have hbegun := hr.begun
  obtain ⟨htake, hdrop⟩ := cut_append hahead (by rw [List.length_drop, hr.page]; omega)
  rw [List.drop_drop] at hdrop
  refine ⟨_, { r with
      pos := r.pos + 4 + data.length, left := r.left - 4 - data.length
      entry_buffer_ := r.entry_buffer_ ++ [⟨data.length, data, r.log_tag_seq⟩] }, hdec,
        size_ne_zero hne hsize, ?_,
    ⟨hr.page, ?_, ?_, ?_, hr.pages, hdrop⟩, ?_, rfl, rfl⟩
  · rw [toNat_size hsize, readRecord]
    dsimp only
    rw [if_pos (by omega), bytesAt_eq (by rw [hr.page]; omega), htake, ok_bind, append_eq (by simp),
      ok_bind]
    simp [LogEntry.check]
  · show r.pos + 4 + data.length + (r.left - 4 - data.length) = PAGESIZE
    omega
  · show 4 ≤ r.pos + 4 + data.length
    omega
  · show r.left - 4 - data.length = l - 4 - data.length
    rw [hleft]
  · show r.pos + 4 + data.length ≠ 4
    omega

/-- A record that goes on to the next pages, if the loop over them reads the rest of it. -/
theorem Reads.takes_on {l' : ℕ} {E : List UInt8} (hne : data ≠ []) (hsize : data.length < 2 ^ 32)
    (hroom : 4 ≤ l) (hfit : l - 4 < data.length)
    (hr : Reads PAGESIZE r l (encodeFixed32 (UInt32.ofNat data.length) ++
      (data.take (l - 4) ++ (E ++ F))))
    (hcont : ∀ e : LogEntry, r.pages.flatten = E ++ F →
      e.data_.length + (data.drop (l - 4)).length = e.size_ →
      ∃ r', r.readRest PAGESIZE r.pages e (data.drop (l - 4)).length =
      .ok ({ e with data_ := e.data_ ++ data.drop (l - 4) }, r') ∧ Reads PAGESIZE r' l' F ∧
      r'.pos ≠ 4 ∧ r'.log_tag_seq = r.log_tag_seq ∧ r'.entry_buffer_ = r.entry_buffer_) :
    Takes PAGESIZE r data l' F := by
  obtain ⟨hdec, hahead⟩ := hr.size hroom
  have hleft := hr.left
  have hsum := hr.pos
  have htake : (data.take (l - 4)).length = l - 4 := by rw [List.length_take]; omega
  have hrest : (data.drop (l - 4)).length = data.length - (l - 4) := List.length_drop ..
  have hlen : (r.page.drop (r.pos + 4)).length = (data.take (l - 4)).length := by
    rw [htake, List.length_drop, hr.page]
    omega
  obtain ⟨hbytes, hflat⟩ := List.append_inj hahead hlen
  obtain ⟨r', hrest', hreads, hpos', htag, hent⟩ :=
      hcont ⟨data.length, data.take (l - 4), r.log_tag_seq⟩ hflat (by
    dsimp only
    rw [htake, hrest]
    omega)
  refine ⟨_, { r' with entry_buffer_ := r'.entry_buffer_ ++ [⟨data.length, data, r.log_tag_seq⟩] },
    hdec, size_ne_zero hne hsize, ?_, ⟨hreads.page, hreads.pos, hreads.begun, hreads.left,
      hreads.pages, hreads.ahead⟩,
    hpos', htag, by rw [hent]⟩
  rw [toNat_size hsize, readRecord]
  dsimp only
  rw [if_neg (by omega), bytesAt_eq (by rw [hr.page]; omega), hbytes, hleft,
    List.take_of_length_le htake.le, ok_bind, append_eq (by simp), ok_bind, assert_of (by omega),
    ok_bind, List.nil_append, ← hrest, hrest', ok_bind, List.take_append_drop]
  rfl

end PageReader

open PageWriter PageReader

/-- The data of a request from the begin of a page on. -/
theorem copyData_spec (hP : 8 ≤ PAGESIZE) :
    ∀ (fuel : ℕ) (data b : List UInt8), data ≠ [] → data.length < fuel →
    Bound PAGESIZE seq ⟨b, PAGESIZE⟩ → ∃ E l, copyData PAGESIZE seq fuel data ⟨b, PAGESIZE⟩ =
      .ok ⟨b ++ E, l⟩ ∧
      Begun PAGESIZE seq ⟨b ++ E, l⟩ ∧ ∀ (r : PageReader) pages e F,
        (∀ p ∈ pages, p.length = PAGESIZE) →
        pages.flatten = E ++ F → e.data_.length + data.length = e.size_ →
        ∃ r', r.readRest PAGESIZE pages e data.length =
          .ok ({ e with data_ := e.data_ ++ data }, r') ∧
          Reads PAGESIZE r' l F ∧ r'.pos ≠ 4 ∧ r'.log_tag_seq = r.log_tag_seq ∧
          r'.entry_buffer_ = r.entry_buffer_
  | 0, data, _, _, hlt, _ => absurd hlt (Nat.not_lt_zero _)
  | fuel + 1, data, b, hne, hlt, hb => by
    have hpos : 0 < data.length := List.length_pos_iff.mpr hne
    have hbegun := hb.begin hP
    have hbegin : beginPage PAGESIZE seq ⟨b, PAGESIZE⟩ = ⟨b ++ encodeFixed32 seq, PAGESIZE - 4⟩ :=
      if_pos rfl
    by_cases hfit : data.length ≤ PAGESIZE - 4
    · -- the data ends on this page
      refine ⟨encodeFixed32 seq ++ data, PAGESIZE - 4 - data.length, ?_, ?_,
        fun r pages e F hpages hflat hsize => ?_⟩
      · rw [copyData, if_neg hpos.ne', hbegin]
        dsimp only
        rw [if_pos hfit, PageWriter.put, List.append_assoc]
        rfl
      · rw [← List.append_assoc]
        exact hbegun.put hfit
      · obtain ⟨p, ps, rfl, hp, hps, htake, hdrop⟩ :=
          first_page hpages (x := encodeFixed32 seq ++ data)
          (by simp [hne]) (by simp only [List.length_append, length_encodeFixed32]; omega) hflat
        have hlen : (encodeFixed32 seq ++ data).length = 4 + data.length := by simp
        rw [hlen] at htake hdrop
        have hbytes : (p.drop 4).take data.length = data := by
          have := congrArg (List.drop 4) htake
          rwa [List.drop_left' (length_encodeFixed32 seq), List.drop_take, Nat.add_sub_cancel_left]
            at this
        refine ⟨{ r with
          page := p, pos := 4 + data.length, left := PAGESIZE - 4 - data.length, pages := ps }, ?_,
          ⟨hp, ?_, Nat.le_add_right _ _, rfl, hps, hdrop⟩, ?_, rfl, rfl⟩
        · rw [readRest, if_pos hfit, bytesAt_eq (by omega), hbytes, ok_bind, append_eq hsize.le,
            ok_bind]
          simp [LogEntry.check, hsize]
        · show 4 + data.length + (PAGESIZE - 4 - data.length) = PAGESIZE
          omega
        · show 4 + data.length ≠ 4
          omega
    · -- the page is filled, and the rest goes on
      have htake : (data.take (PAGESIZE - 4)).length = PAGESIZE - 4 := by
        rw [List.length_take]; omega
      have hrest : (data.drop (PAGESIZE - 4)).length = data.length - (PAGESIZE - 4) :=
        List.length_drop ..
      have hne' : data.drop (PAGESIZE - 4) ≠ [] := by
        rw [← List.length_pos_iff]
        omega
      obtain ⟨E, l, hcopy, hbegun', hread⟩ := copyData_spec hP fuel (data.drop (PAGESIZE - 4))
        (b ++ encodeFixed32 seq ++ data.take (PAGESIZE - 4)) hne' (by omega) (hbegun.fill htake)
      refine ⟨encodeFixed32 seq ++ data.take (PAGESIZE - 4) ++ E, l, ?_, ?_,
        fun r pages e F hpages hflat hsize => ?_⟩
      · rw [copyData, if_neg hpos.ne', hbegin]
        dsimp only
        rw [if_neg hfit, hcopy]
        simp only [List.append_assoc]
      · simpa only [List.append_assoc] using hbegun'
      · rw [List.append_assoc] at hflat
        have hlen : (encodeFixed32 seq ++ data.take (PAGESIZE - 4)).length = PAGESIZE := by
          rw [List.length_append, htake, length_encodeFixed32]
          omega
        obtain ⟨p, ps, rfl, hp, hps, hwhole, hdrop⟩ :=
          first_page hpages (x := encodeFixed32 seq ++ data.take (PAGESIZE - 4))
          (by simp [encodeFixed32]) hlen.le hflat
        rw [hlen, List.take_of_length_le hp.le] at hwhole
        rw [hlen, List.drop_of_length_le hp.le, List.nil_append] at hdrop
        have hbytes : (p.drop 4).take (PAGESIZE - 4) = data.take (PAGESIZE - 4) := by
          rw [hwhole, List.drop_left' (length_encodeFixed32 seq), List.take_of_length_le htake.le]
        obtain ⟨r', hrest', hreads⟩ :=
            hread r ps { e with data_ := e.data_ ++ data.take (PAGESIZE - 4) } F hps hdrop (by
          simp only [List.length_append, htake, hrest]
          omega)
        refine ⟨r', ?_, hreads⟩
        rw [readRest, if_neg hfit, bytesAt_eq (by omega), hbytes, ok_bind,
          append_eq (by rw [htake]; omega), ok_bind, ← hrest, hrest']
        simp only [List.append_assoc, List.take_append_drop]

/-- Behind the size the page is begun already. -/
theorem writeRecord_eq (hb : Begun PAGESIZE seq w) (hne : data ≠ []) :
    w.writeRecord PAGESIZE seq data =
      if data.length ≤ w.left_in_page - 4 then
        .ok ⟨w.buf ++ encodeFixed32 (UInt32.ofNat data.length) ++ data,
          w.left_in_page - 4 - data.length⟩
      else copyData PAGESIZE seq (data.length + 1) (data.drop (w.left_in_page - 4))
        ⟨w.buf ++ encodeFixed32 (UInt32.ofNat data.length) ++ data.take (w.left_in_page - 4),
          PAGESIZE⟩ := by
  have hle := hb.left_le
  have hbegin : beginPage PAGESIZE seq ⟨w.buf ++ encodeFixed32 (UInt32.ofNat data.length),
      w.left_in_page - 4⟩ =
      ⟨w.buf ++ encodeFixed32 (UInt32.ofNat data.length), w.left_in_page - 4⟩ :=
        if_neg (by dsimp only; omega)
  rw [writeRecord, PageWriter.put, length_encodeFixed32, copyData,
    if_neg (List.length_pos_iff.mpr hne).ne', hbegin]
  rfl

/-- A size and its data, on a page with room for the size. -/
theorem writeRecord_spec (hP : 8 ≤ PAGESIZE) (hb : Begun PAGESIZE seq w)
    (hroom : 4 ≤ w.left_in_page) (hne : data ≠ []) (hsize : data.length < 2 ^ 32) :
    ∃ E l, w.writeRecord PAGESIZE seq data = .ok ⟨w.buf ++ E, l⟩ ∧
      Begun PAGESIZE seq ⟨w.buf ++ E, l⟩ ∧
      0 < E.length ∧ ∀ r F, Reads PAGESIZE r w.left_in_page (E ++ F) →
      Takes PAGESIZE r data l F := by
  have hb₁ : Begun PAGESIZE seq (w.put (encodeFixed32 (UInt32.ofNat data.length))) := hb.put hroom
  rw [writeRecord_eq hb hne]
  by_cases hfit : data.length ≤ w.left_in_page - 4
  · rw [if_pos hfit]
    refine ⟨encodeFixed32 (UInt32.ofNat data.length) ++ data, w.left_in_page - 4 - data.length, ?_,
      ?_, by simp only [List.length_append, length_encodeFixed32]; omega, fun r F hr => ?_⟩
    · rw [List.append_assoc]
    · rw [← List.append_assoc]
      exact hb₁.put hfit
    · rw [List.append_assoc] at hr
      exact hr.takes hne hsize (by omega)
  · -- the data goes on to the next pages
    rw [if_neg hfit]
    have htake : (data.take (w.left_in_page - 4)).length = w.left_in_page - 4 := by
      rw [List.length_take]; omega
    have hne' : data.drop (w.left_in_page - 4) ≠ [] := by
      rw [← List.length_pos_iff, List.length_drop]
      omega
    obtain ⟨E, l, hcopy, hbegun, hcont⟩ :=
      copyData_spec hP (data.length + 1) (data.drop (w.left_in_page - 4))
      (w.buf ++ encodeFixed32 (UInt32.ofNat data.length) ++ data.take (w.left_in_page - 4)) hne'
      (by rw [List.length_drop]; omega) (hb₁.fill htake)
    refine ⟨encodeFixed32 (UInt32.ofNat data.length) ++ (data.take (w.left_in_page - 4) ++ E), l,
      ?_, ?_, by simp only [List.length_append, length_encodeFixed32]; omega, fun r F hr => ?_⟩
    · rw [hcopy]
      simp only [List.append_assoc]
    · simpa only [List.append_assoc] using hbegun
    · rw [List.append_assoc, List.append_assoc] at hr
      exact hr.takes_on hne hsize hroom (not_le.mp hfit) fun e hflat hlen =>
        hcont r r.pages e F hr.pages hflat hlen

/-! ### Turns of the reader -/

namespace PageReader

theorem refresh_of_ne (hpos : r.pos ≠ 4) : r.refresh = .ok r := if_neg hpos

theorem refresh_of_begin (hpos : r.pos = 4) (hpage : encodeFixed32 seq <+: r.page) :
    r.refresh = .ok { r with log_tag_seq := seq } := by
  obtain ⟨t, ht⟩ := hpage
  rw [refresh, if_pos hpos, ← ht, decode_encode]
  rfl

/-- `k` turns of the loop. -/
def Steps (PAGESIZE k : ℕ) (r r' : PageReader) : Prop :=
  ∀ fuel, loop PAGESIZE (fuel + k) r = loop PAGESIZE fuel r'

theorem Steps.refl (r : PageReader) : Steps PAGESIZE 0 r r := fun _ => rfl

theorem Steps.trans {m n : ℕ} {r'' : PageReader} (h₁ : Steps PAGESIZE m r r')
    (h₂ : Steps PAGESIZE n r' r'') :
    Steps PAGESIZE (m + n) r r'' := by
  intro fuel
  rw [Nat.add_comm m n, ← Nat.add_assoc, h₁, h₂]

theorem Steps.turn (h : r.turn PAGESIZE = .ok (some r')) : Steps PAGESIZE 1 r r' := by
  intro fuel
  rw [loop, h]
  rfl

/-- A turn that reads an entry. -/
theorem turn_record {r₁ r₂ : PageReader} {size : UInt32} (href : r.refresh = .ok r₁)
    (hnext : (if r₁.left < 4 then r₁.nextPage PAGESIZE else some r₁) = some r₂)
    (hdec : decodeFixed32 (r₂.page.drop r₂.pos) = .ok size) (hnz : size ≠ 0)
    (hread : r₂.readRecord PAGESIZE size.toNat = .ok r') : r.turn PAGESIZE = .ok (some r') := by
  rw [PageReader.turn, href, ok_bind, hnext]
  dsimp only
  rw [hdec, ok_bind, if_neg hnz, hread]
  rfl

/-- A turn that finds the rest of the page zero. -/
theorem turn_zero {r₁ : PageReader} (href : r.refresh = .ok r₁) (hroom : ¬ r₁.left < 4)
    (hdec : decodeFixed32 (r₁.page.drop r₁.pos) = .ok 0) :
    r.turn PAGESIZE = .ok (r₁.nextPage PAGESIZE) := by
  rw [PageReader.turn, href, ok_bind, if_neg hroom]
  dsimp only
  rw [hdec, ok_bind, if_pos rfl]
  rfl

/-- Between two batches: the rest of the page is zero, and `F` is on the pages to come. -/
structure Between (PAGESIZE : ℕ) (r : PageReader) (F : List UInt8) : Prop where
  reads : Reads PAGESIZE r r.left (List.replicate r.left 0 ++ F)
  tag : ∃ seq, r.refresh = .ok { r with log_tag_seq := seq } ∧ (r.left < 4 → seq = r.log_tag_seq)

theorem Reads.between (hr : Reads PAGESIZE r r.left (List.replicate r.left 0 ++ F))
    (hpos : r.pos ≠ 4) :
    Between PAGESIZE r F := ⟨hr, r.log_tag_seq, refresh_of_ne hpos, fun _ => rfl⟩

/-- The state with another number of the log file. -/
theorem Reads.withTag {l : ℕ} (hr : Reads PAGESIZE r l F) (tag : UInt32) :
    Reads PAGESIZE { r with log_tag_seq := tag } l F :=
    ⟨hr.page, hr.pos, hr.begun, hr.left, hr.pages, hr.ahead⟩

/-- The loop ends behind the last batch. -/
theorem Between.loop_end (hb : Between PAGESIZE r []) (fuel : ℕ) :
    loop PAGESIZE (fuel + 1) r = .ok r.entry_buffer_ := by
  obtain ⟨hr, seq, href, -⟩ := hb
  have hflat : r.pages.flatten = [] :=
    (List.append_inj hr.ahead (by rw [hr.length, List.length_replicate])).2
  have hdrop : r.page.drop r.pos = List.replicate r.left 0 :=
    (List.append_inj hr.ahead (by rw [hr.length, List.length_replicate])).1
  have hlast : nextPage PAGESIZE { r with log_tag_seq := seq } = none := by
    cases hp : r.pages with
    | nil => rfl
    | cons p ps =>
      have hlen := hr.pages p (by simp [hp])
      have hsum := hr.pos
      have hbegun := hr.begun
      rw [hp, List.flatten_cons, List.append_eq_nil_iff] at hflat
      rw [hflat.1] at hlen
      simp only [List.length_nil] at hlen
      omega
  have hturn : r.turn PAGESIZE = .ok none := by
    by_cases hleft : r.left < 4
    · rw [PageReader.turn, href, ok_bind, if_pos (by exact hleft), hlast]
      rfl
    · have hdec : decodeFixed32 (r.page.drop r.pos) = .ok 0 := by
        rw [hdrop, ← List.append_nil (List.replicate r.left 0), decode_zeros (by omega)]
      rw [turn_zero href (by exact hleft) (by exact hdec), hlast]
  rw [loop, hturn]
  rfl

/-- The begin of a page, ahead of a batch: behind a page with less than four bytes left the number
    of the log file is not read. -/
theorem Between.open_page {l : ℕ} (hb : Between PAGESIZE r (encodeFixed32 seq ++ F))
    (hP : 8 ≤ PAGESIZE)
    (hread : ∀ r₁, Reads PAGESIZE r₁ (PAGESIZE - 4) F → Takes PAGESIZE r₁ data l h) :
    ∃ k r', k ≤ 1 + min 1 r.left ∧ Steps PAGESIZE k r r' ∧ Reads PAGESIZE r' l h ∧ r'.pos ≠ 4 ∧
      r'.log_tag_seq = (if r.left < 4 then r.log_tag_seq else seq) ∧
      r'.entry_buffer_ = r.entry_buffer_ ++ [⟨data.length, data, r'.log_tag_seq⟩] := by
  obtain ⟨hr, tag, href, htag⟩ := hb
  obtain ⟨r₁, hnext, hr₁, hpos₁, hpage, htag₁, hent₁⟩ :=
    (hr.withTag tag).next (List.length_replicate ..)
    (length_encodeFixed32 seq) hP
  by_cases hleft : r.left < 4
  · obtain ⟨size, r', hdec, hnz, hrec, hr', hpos', htag', hent'⟩ := hread r₁ hr₁
    refine ⟨1, r', by omega, .turn (turn_record href (by rw [if_pos (by exact hleft)]; exact hnext)
      hdec hnz hrec), hr', hpos', ?_, ?_⟩
    · rw [htag', htag₁, if_pos hleft]
      exact htag hleft
    · rw [hent', hent₁, htag']
  · have hdec₀ : decodeFixed32 (r.page.drop r.pos) = .ok 0 := by
      rw [(List.append_inj hr.ahead (by rw [hr.length, List.length_replicate])).1,
        ← List.append_nil (List.replicate r.left 0), decode_zeros (by omega)]
    obtain ⟨size, r', hdec, hnz, hrec, hr', hpos', htag', hent'⟩ :=
      hread { r₁ with log_tag_seq := seq } (hr₁.withTag seq)
    have hturn₀ : r.turn PAGESIZE = .ok (some r₁) := by
      rw [turn_zero href (by exact hleft) (by exact hdec₀), hnext]
    have hroom : ¬ r₁.left < 4 := by
      have := hr₁.left
      omega
    have hturn₁ := turn_record (refresh_of_begin hpos₁ hpage) (if_neg (by exact hroom))
      hdec hnz hrec
    refine ⟨2, r', by omega, (Steps.turn hturn₀).trans (.turn hturn₁), hr', hpos', ?_, ?_⟩
    · rw [htag', if_neg hleft]
    · rw [hent', htag', ← hent₁]

end PageReader

/-! ### Requests, batches and logs -/

/-- A request that passes the assertion has a size of four bytes. -/
theorem writeRequest_eq_ok (hs : writeRequest PAGESIZE seq w data = .ok w') :
    data.length < 2 ^ 32 ∧ (w.startRecord PAGESIZE seq).writeRecord PAGESIZE seq data = .ok w' := by
  obtain ⟨_, hassert, hs⟩ := bind_eq_ok.mp hs
  have hbound : MAX_BUFFER_SIZE - 4 * (MAX_BUFFER_SIZE / PAGESIZE) ≤ 2 ^ 20 := Nat.sub_le _ _
  refine ⟨?_, hs⟩
  by_contra hge
  rw [assert_not (by omega)] at hassert
  cases hassert

/-- The first request of a batch. -/
theorem writeRequest_first (hP : 8 ≤ PAGESIZE) (hne : data ≠ [])
    (hs : writeRequest PAGESIZE seq ⟨[], PAGESIZE⟩ data = .ok w') : Begun PAGESIZE seq w' ∧
      ∃ E, w'.buf = encodeFixed32 seq ++ E ∧ 0 < E.length ∧
        ∀ r F, Between PAGESIZE r (encodeFixed32 seq ++ (E ++ F)) →
        ∃ k r', k ≤ 1 + min 1 r.left ∧ Steps PAGESIZE k r r' ∧ Reads PAGESIZE r' w'.left_in_page F ∧
          r'.pos ≠ 4 ∧
          r'.log_tag_seq = (if r.left < 4 then r.log_tag_seq else seq) ∧
          r'.entry_buffer_ = r.entry_buffer_ ++ [⟨data.length, data, r'.log_tag_seq⟩] := by
  obtain ⟨hsize, hs⟩ := writeRequest_eq_ok hs
  have hstart : startRecord PAGESIZE seq ⟨[], PAGESIZE⟩ = ⟨encodeFixed32 seq, PAGESIZE - 4⟩ := by
    rw [startRecord, if_neg (by dsimp only; omega), beginPage, if_pos rfl]
    rfl
  rw [hstart] at hs
  obtain ⟨E, l, hwrite, hbegun, hpos, hread⟩ :=
    writeRecord_spec hP (bound_nil.begin hP) (by dsimp only; omega) hne hsize
  cases hwrite.symm.trans hs
  exact ⟨hbegun, E, rfl, hpos, fun r F hb => hb.open_page hP fun r₁ hr₁ => hread r₁ F hr₁⟩

/-- Another request of a batch. -/
theorem writeRequest_next (hP : 8 ≤ PAGESIZE) (hne : data ≠ []) (hb : Begun PAGESIZE seq w)
    (hs : writeRequest PAGESIZE seq w data = .ok w') : Begun PAGESIZE seq w' ∧
      ∃ E, w'.buf = w.buf ++ E ∧ 0 < E.length ∧ ∀ r F, Reads PAGESIZE r w.left_in_page (E ++ F) →
        r.pos ≠ 4 →
        ∃ r', Steps PAGESIZE 1 r r' ∧ Reads PAGESIZE r' w'.left_in_page F ∧ r'.pos ≠ 4 ∧
          r'.log_tag_seq = r.log_tag_seq ∧
          r'.entry_buffer_ = r.entry_buffer_ ++ [⟨data.length, data, r.log_tag_seq⟩] := by
  obtain ⟨hsize, hs⟩ := writeRequest_eq_ok hs
  have hle := hb.left_le
  by_cases hroom : w.left_in_page < 4
  · -- the size goes to the next page
    have hstart : w.startRecord PAGESIZE seq =
        ⟨w.buf ++ List.replicate w.left_in_page 0 ++ encodeFixed32 seq, PAGESIZE - 4⟩ := by
      rw [startRecord, if_pos hroom, zeroFill, beginPage, if_pos rfl]
      rfl
    rw [hstart] at hs
    obtain ⟨E, l, hwrite, hbegun, hpos, hread⟩ := writeRecord_spec hP
      ((hb.fill (List.length_replicate ..)).begin hP) (by dsimp only; omega) hne hsize
    cases hwrite.symm.trans hs
    refine ⟨hbegun, List.replicate w.left_in_page 0 ++ (encodeFixed32 seq ++ E), by
      simp only [List.append_assoc], by simp only [List.length_append, length_encodeFixed32]; omega,
      fun r F hr hr4 => ?_⟩
    rw [List.append_assoc, List.append_assoc] at hr
    obtain ⟨r₁, hnext, hr₁, -, -, htag₁, hent₁⟩ :=
      hr.next (List.length_replicate ..) (length_encodeFixed32 seq) hP
    obtain ⟨size, r', hdec, hnz, hrec, hr', hpos', htag', hent'⟩ := hread r₁ F hr₁
    refine ⟨r', .turn (turn_record (refresh_of_ne hr4)
      (by rw [if_pos (by rw [hr.left]; exact hroom)]; exact hnext) hdec hnz hrec),
      hr', hpos', htag'.trans htag₁, ?_⟩
    rw [hent', hent₁, htag₁]
  · have hstart : w.startRecord PAGESIZE seq = w := by
      rw [startRecord, if_neg hroom, beginPage, if_neg (by omega)]
    rw [hstart] at hs
    obtain ⟨E, l, hwrite, hbegun, hpos, hread⟩ := writeRecord_spec hP hb (not_lt.mp hroom) hne hsize
    cases hwrite.symm.trans hs
    refine ⟨hbegun, E, rfl, hpos, fun r F hr hr4 => ?_⟩
    obtain ⟨size, r', hdec, hnz, hrec, hr', hpos', htag', hent'⟩ := hread r F hr
    exact ⟨r', .turn (turn_record (refresh_of_ne hr4) (if_neg (by rw [hr.left]; exact hroom)) hdec
      hnz hrec), hr', hpos', htag', hent'⟩

/-- The entries that come back for a batch. -/
def entriesOf (tag : UInt32) (batch : List (List UInt8)) : List LogEntry :=
  batch.map fun data => ⟨data.length, data, tag⟩

/-- The requests behind the first one. -/
theorem writeRequests_next (hP : 8 ≤ PAGESIZE) :
    ∀ {batch : List (List UInt8)} {w : PageWriter}, (∀ data ∈ batch, data ≠ []) →
    Begun PAGESIZE seq w → batch.foldlM (writeRequest PAGESIZE seq) w = .ok w' →
      Begun PAGESIZE seq w' ∧
      ∃ E, w'.buf = w.buf ++ E ∧ ∀ r F, Reads PAGESIZE r w.left_in_page (E ++ F) → r.pos ≠ 4 →
        ∃ k r', k ≤ E.length ∧ Steps PAGESIZE k r r' ∧ Reads PAGESIZE r' w'.left_in_page F ∧
          r'.pos ≠ 4 ∧
          r'.log_tag_seq = r.log_tag_seq ∧
          r'.entry_buffer_ = r.entry_buffer_ ++ entriesOf r.log_tag_seq batch
  | [], w, _, hb, hs => by
    cases hs
    exact ⟨hb, [], by simp, fun r F hr hr4 => ⟨0, r, le_rfl, .refl r, hr, hr4,
      rfl, by simp [entriesOf]⟩⟩
  | data :: batch, w, hne, hb, hs => by
    rw [List.foldlM_cons] at hs
    obtain ⟨w₁, hs₁, hs⟩ := bind_eq_ok.mp hs
    obtain ⟨hb₁, E₁, hbuf₁, hpos₁, hread₁⟩ := writeRequest_next hP (hne data (by simp)) hb hs₁
    obtain ⟨hb', E₂, hbuf₂, hread₂⟩ :=
      writeRequests_next hP (fun d hd => hne d (by simp [hd])) hb₁ hs
    refine ⟨hb', E₁ ++ E₂, by rw [hbuf₂, hbuf₁, List.append_assoc], fun r F hr hr4 => ?_⟩
    rw [List.append_assoc] at hr
    obtain ⟨r₁, hsteps₁, hr₁, hpos₁', htag₁, hent₁⟩ := hread₁ r _ hr hr4
    obtain ⟨k, r', hk, hsteps, hr', hpos', htag', hent'⟩ := hread₂ r₁ F hr₁ hpos₁'
    refine ⟨1 + k, r', by rw [List.length_append]; omega, hsteps₁.trans hsteps, hr', hpos',
      htag'.trans htag₁, ?_⟩
    rw [hent', hent₁, htag₁, List.append_assoc]
    rfl

/-- A batch is made of whole pages that begin with the number of the log file. The reader comes from
    one end of a batch to the next, with an entry for each request. -/
theorem memCopy_spec {batch : List (List UInt8)} {out : List UInt8} (hP : 8 ≤ PAGESIZE)
    (hbatch : batch ≠ []) (hne : ∀ data ∈ batch, data ≠ [])
    (hs : memCopy PAGESIZE seq batch = .ok out) :
    (∃ ps, Whole PAGESIZE (encodeFixed32 seq) ps ∧ out = ps.flatten) ∧
    ∀ r F, Between PAGESIZE r (out ++ F) → ∃ k r', k + min 1 r'.left ≤ min 1 r.left + out.length ∧
      Steps PAGESIZE k r r' ∧
      Between PAGESIZE r' F ∧ r'.log_tag_seq = (if r.left < 4 then r.log_tag_seq else seq) ∧
      r'.entry_buffer_ = r.entry_buffer_ ++ entriesOf r'.log_tag_seq batch := by
  obtain ⟨data, batch, rfl⟩ := List.exists_cons_of_ne_nil hbatch
  rw [memCopy, List.foldlM_cons] at hs
  obtain ⟨w, hs₀, hs⟩ := bind_eq_ok.mp hs
  obtain ⟨w₁, hs₁, hs₂⟩ := bind_eq_ok.mp hs₀
  obtain ⟨hb₁, E₁, hbuf₁, hpos₁, hread₁⟩ := writeRequest_first hP (hne data (by simp)) hs₁
  obtain ⟨hb, E₂, hbuf₂, hread₂⟩ := writeRequests_next hP (fun d hd => hne d (by simp [hd])) hb₁ hs₂
  have hle := hb.left_le
  have hout : out = w.buf ++ List.replicate w.left_in_page 0 := by
    dsimp only at hs
    obtain ⟨_, -, hs⟩ := bind_eq_ok.mp hs
    cases hs
    split
    · rfl
    · rename_i hfull
      obtain h0 : w.left_in_page = 0 := by omega
      simp [h0]
  obtain ⟨-, ps, hps, hflat⟩ :=
    hb.fill (List.length_replicate (n := w.left_in_page) (a := (0 : UInt8)))
  refine ⟨⟨ps, hps, hout.trans hflat⟩, fun r F hbt => ?_⟩
  rw [hout, hbuf₂, hbuf₁, List.append_assoc, List.append_assoc, List.append_assoc] at hbt
  obtain ⟨k₁, r₁, hk₁, hsteps₁, hr₁, hpos₁', htag₁, hent₁⟩ := hread₁ r _ hbt
  obtain ⟨k₂, r', hk₂, hsteps₂, hr', hpos', htag', hent'⟩ := hread₂ r₁ _ hr₁ hpos₁'
  have hleft := hr'.left
  rw [← hleft] at hr'
  refine ⟨k₁ + k₂, r', ?_, hsteps₁.trans hsteps₂, hr'.between hpos', htag'.trans htag₁, ?_⟩
  · rw [hout, hbuf₂, hbuf₁, hleft]
    simp only [List.length_append, List.length_replicate, length_encodeFixed32]
    omega
  · rw [hent', hent₁, htag', List.append_assoc]
    rfl

/-- The batches of a log, each with the number of its log file and the pages it was written to. -/
def Written (PAGESIZE : ℕ) (log : List (UInt32 × List (List UInt8))) (outs : List (List UInt8)) :
    Prop :=
  List.Forall₂ (fun b out => b.2 ≠ [] ∧ (∀ data ∈ b.2, data ≠ []) ∧ memCopy PAGESIZE b.1 b.2 = .ok
    out) log outs

/-- The reader comes through a whole log. -/
theorem Written.read {log : List (UInt32 × List (List UInt8))} {outs : List (List UInt8)}
    (hP : 8 ≤ PAGESIZE) (hw : Written PAGESIZE log outs) :
    ∀ {r : PageReader}, Between PAGESIZE r outs.flatten →
      ∃ k r' es, k + min 1 r'.left ≤ min 1 r.left + outs.flatten.length ∧ Steps PAGESIZE k r r' ∧
        Between PAGESIZE r' [] ∧
        r'.entry_buffer_ = r.entry_buffer_ ++ es ∧ es.map LogEntry.data_ = log.flatMap Prod.snd ∧
        ∀ seq, (∀ b ∈ log, b.1 = seq) → (r.left < 4 → r.log_tag_seq = seq) →
        ∀ e ∈ es, e.log_tag_seq = seq := by
  induction hw with
  | nil =>
    intro r hb
    exact ⟨0, r, [], by simp, .refl r, hb, by simp, rfl, by simp⟩
  | @cons b out log outs hb hrest ih =>
    intro r hbt
    obtain ⟨hne, hdata, hcopy⟩ := hb
    rw [List.flatten_cons] at hbt
    obtain ⟨k₁, r₁, hk₁, hsteps₁, hb₁, htag₁, hent₁⟩ := (memCopy_spec hP hne hdata hcopy).2 r _ hbt
    obtain ⟨k₂, r', es, hk₂, hsteps₂, hb', hent', hes, htags⟩ := ih hb₁
    refine ⟨k₁ + k₂, r', entriesOf r₁.log_tag_seq b.2 ++ es, ?_, hsteps₁.trans hsteps₂, hb', ?_, ?_,
      fun seq hseq htag => ?_⟩
    · rw [List.flatten_cons, List.length_append]
      omega
    · rw [hent', hent₁, List.append_assoc]
    · rw [List.map_append, hes, List.flatMap_cons, entriesOf, List.map_map]
      exact congrArg (· ++ _) (List.map_id _)
    · have htag' : r₁.log_tag_seq = seq := by
        rw [htag₁]
        split
        · exact htag ‹_›
        · exact hseq b (by simp)
      intro e he
      rcases List.mem_append.mp he with he | he
      · obtain ⟨data, -, rfl⟩ := List.mem_map.mp he
        exact htag'
      · exact htags seq (fun b hb => hseq b (by simp [hb])) (fun _ => htag') e he

/-- At a page of zeros the number of the log file stays 0. -/
theorem refresh_zeros (hP : 8 ≤ PAGESIZE) (pages : List (List UInt8)) :
    refresh ⟨List.replicate PAGESIZE 0, 4, PAGESIZE - 4, 0, pages, []⟩ =
      .ok ⟨List.replicate PAGESIZE 0, 4, PAGESIZE - 4, 0, pages, []⟩ := by
  rw [refresh, if_pos rfl, ← List.append_nil (List.replicate PAGESIZE 0), decode_zeros (by omega)]
  rfl

theorem between_zeros {pages : List (List UInt8)} (hP : 8 ≤ PAGESIZE)
    (hpages : ∀ p ∈ pages, p.length = PAGESIZE) :
    Between PAGESIZE ⟨List.replicate PAGESIZE 0, 4, PAGESIZE - 4, 0, pages, []⟩ pages.flatten := by
  refine ⟨⟨List.length_replicate .., ?_, le_rfl, rfl, hpages, ?_⟩, 0, refresh_zeros hP pages,
    fun _ => rfl⟩
  · show 4 + (PAGESIZE - 4) = PAGESIZE
    omega
  · rw [List.drop_replicate]

/-- `ProcessData` runs as if it came from a page of zeros. -/
theorem loop_zeros (hP : 8 ≤ PAGESIZE) (pages : List (List UInt8)) :
    loop PAGESIZE (pages.flatten.length + 1 + 1)
      ⟨List.replicate PAGESIZE 0, 4, PAGESIZE - 4, 0, pages, []⟩ =
      FrozenHot.processData PAGESIZE pages := by
  rw [loop, turn_zero (refresh_zeros hP pages), ok_bind]
  · cases pages with
    | nil => rfl
    | cons page rest => rfl
  · dsimp only
    omega
  · dsimp only
    rw [List.drop_replicate, ← List.append_nil (List.replicate _ 0), decode_zeros (by omega)]

/-- `ProcessData` returns the requests of a log in order; those of a log of one file come under its
    number. -/
theorem Written.processData {log : List (UInt32 × List (List UInt8))}
    {outs pages : List (List UInt8)} (hP : 8 ≤ PAGESIZE) (hw : Written PAGESIZE log outs)
    (hflat : pages.flatten = outs.flatten) (hpages : ∀ p ∈ pages, p.length = PAGESIZE) :
    ∃ es, FrozenHot.processData PAGESIZE pages = .ok es ∧
      es.map LogEntry.data_ = log.flatMap Prod.snd ∧
      ∀ seq, (∀ b ∈ log, b.1 = seq) → ∀ e ∈ es, e.log_tag_seq = seq := by
  obtain ⟨k, r', es, hk, hsteps, hend, hent, hes, htags⟩ :=
    hw.read hP (hflat ▸ between_zeros hP hpages)
  refine ⟨es, ?_, hes, fun seq hseq => htags seq hseq fun h => ?_⟩
  · have hfuel : k ≤ pages.flatten.length + 1 := by
      have : min 1 (PAGESIZE - 4) ≤ 1 := Nat.min_le_left _ _
      rw [← hflat] at hk
      dsimp only at hk
      omega
    have hsplit : pages.flatten.length + 1 + 1 = pages.flatten.length + 1 - k + 1 + k := by omega
    rw [← loop_zeros hP, hsplit, hsteps, hend.loop_end, hent, List.nil_append]
  · dsimp only at h
    omega

-- a request that fills its page, and the first request of the next log file: it is read under the
-- number of
-- the log file before
example :
    (memCopy 4096 5 [List.replicate 4088 1] >>= fun p => memCopy 4096 6 [[7]] >>= fun q =>
      (processData 4096 [p, q]).map (·.map fun e => (e.size_, e.log_tag_seq))) =
      .ok [(4088, 5), (1, 5)] := by
  decide +kernel

end

end FrozenHot
