import FrozenHot.Schemes.Heap
import FrozenHot.Cache.Machine
import Mathlib.Algebra.GroupWithZero.Nat
import Mathlib.Data.List.GetD
import Mathlib.Data.List.Range

/-! The loader of the binary trace format (`trace_loader.h`).

    A file is its bytes, in records of twelve: a time that is not used, an `int` for the operation
    and a 32-bit key, all in little-endian order. The loader reads blocks of 1024 records. `read`
    sets the end-of-file flag if it gets less than it asks for, and then the number of records in
    what it got is worked out from `file_request_num`, which only the mode with several files
    sets. -/

namespace FrozenHot
open Schemes

namespace TraceLoader

inductive Operation where
  | PUT | GET | DELETE | READ | WRITE
  | set | add | replace | append | prepend | cas | get | gets | delete_ | incr | decr
  | NoType
  deriving DecidableEq

structure Request where
  opt_ : Operation
  key_ : ℕ
  deriving DecidableEq

/-- `uint8_op_map[op_bin]`; `operator[]` gives an operation that is not in the table the value
    zero. -/
def uint8_op_map (op_bin : ℤ) : Operation :=
  if op_bin = 1 then .set else if op_bin = 2 then .add else if op_bin = 3 then .replace
  else if op_bin = 4 then .append else if op_bin = 5 then .prepend else if op_bin = 6 then .cas
  else if op_bin = 7 then .get else if op_bin = 8 then .gets else if op_bin = 9 then .delete_
  else if op_bin = 10 then .incr else if op_bin = 11 then .decr else .PUT

/-- The four bytes from `j` on as a number. -/
def word (l : List UInt8) (j : ℕ) : ℕ :=
  (l.getD j 0).toNat + 2 ^ 8 * (l.getD (j + 1) 0).toNat + 2 ^ 16 * (l.getD (j + 2) 0).toNat +
    2 ^ 24 * (l.getD (j + 3) 0).toNat

/-- The record number `i` of the bytes. -/
def decode (l : List UInt8) (i : ℕ) : Request :=
  ⟨uint8_op_map (toInt (word l (12 * i + 4))), word l (12 * i + 8)⟩

/-- The places of `requests_`, which is 100 GB of eight bytes each. -/
def capacity : ℕ := 13421772800

/-- Store `count` records of the buffer from record `i` on. -/
def store (buffer : List UInt8) : (count i : ℕ) → List Request → Except Fault (List Request)
  | 0, _, requests_ => return requests_
  | count + 1, i, requests_ =>
    if 12 * (i + 1) ≤ buffer.length ∧ requests_.length < capacity then
      store buffer count (i + 1) (requests_ ++ [decode buffer i])
    else throw .deref

/-- The loop over the blocks of a file, with `rest` not read yet. -/
def readBlocks (num : ℕ) (file_request_num : ℤ) : (fuel : ℕ) → List UInt8 → List Request →
    Except Fault (List Request)
  | 0, _, _ => throw .diverge
  | fuel + 1, rest, requests_ =>
    if requests_.length < num then
      if rest.length < 12 * 1024 then store rest (file_request_num.tmod 1024).toNat 0 requests_
      else do
        let requests_ ← store (rest.take (12 * 1024)) 1024 0 requests_
        readBlocks num file_request_num fuel (rest.drop (12 * 1024)) requests_
    else return requests_

def loadFile (num : ℕ) (file_request_num : ℤ) (file : List UInt8) (requests_ : List Request) :
    Except Fault (List Request) :=
  readBlocks num file_request_num (file.length / (12 * 1024) + 1) file requests_

/-- What is loaded: one file, or the files of the suffixes from a first to a last one. -/
inductive Source where
  | work_file (file : List UInt8)
  | suffixs (files : List (List UInt8))

namespace Source

def files : Source → List (List UInt8)
  | .work_file file => [file]
  | .suffixs files => files

/-- `file_request_num` when a file of `n` records is read. -/
def file_request_num : Source → ℕ → ℤ
  | .work_file _, _ => 0
  | .suffixs _, n => toInt n

end Source

end TraceLoader

structure TraceLoader where
  requests_ : List TraceLoader.Request
  queue_size : ℕ
  deriving DecidableEq

namespace TraceLoader

/-- The constructor. -/
def load (num : ℕ) (source : Source) : Except Fault TraceLoader := do
  let requests_ ← source.files.foldlM (fun requests_ file =>
    if requests_.length ≥ num then return requests_
    else loadFile num (source.file_request_num (file.length / 12)) file requests_) []
  return ⟨requests_, requests_.length⟩

/-- The place that `GetRequest` reads; its parameter has 32 bits. -/
def position (queue_size index : ℕ) : ℕ := index % 2 ^ 32 % queue_size

def GetRequest (t : TraceLoader) (index : ℕ) : Option Request :=
  t.requests_[position t.queue_size index]?

/-! ### The records of a file -/

variable {l l' file : List UInt8} {files : List (List UInt8)} {requests_ A B : List Request}
variable {num n d i j k t : ℕ} {r : Request} {source : Source}

def records (file : List UInt8) : List Request := (List.range (file.length / 12)).map (decode file)

@[simp] theorem length_records (file : List UInt8) : (records file).length = file.length / 12 := by
  simp [records]

theorem word_congr (h : ∀ i < 4, l.getD (j + i) 0 = l'.getD (k + i) 0) : word l j = word l' k := by
  have h0 : l.getD j 0 = l'.getD k 0 := by simpa using h 0 (by omega)
  simp only [word, h0, h 1 (by omega), h 2 (by omega), h 3 (by omega)]

theorem decode_congr (h : ∀ m < 12, l.getD (12 * i + m) 0 = l'.getD (12 * j + m) 0) :
    decode l i = decode l' j := by
  have h4 : word l (12 * i + 4) = word l' (12 * j + 4) :=
    word_congr fun m hm => by simpa only [Nat.add_assoc] using h (4 + m) (by omega)
  have h8 : word l (12 * i + 8) = word l' (12 * j + 8) :=
    word_congr fun m hm => by simpa only [Nat.add_assoc] using h (8 + m) (by omega)
  rw [decode, decode, h4, h8]

theorem decode_take (h : i < k) (l : List UInt8) : decode (l.take (12 * k)) i = decode l i :=
  decode_congr fun m hm => by
    rw [List.getD_eq_getElem?_getD, List.getD_eq_getElem?_getD, List.getElem?_take_of_lt (by omega)]

theorem decode_drop (k i : ℕ) (l : List UInt8) : decode (l.drop (12 * k)) i = decode l (k + i) :=
  decode_congr fun m hm => by
    rw [List.getD_eq_getElem?_getD, List.getD_eq_getElem?_getD, List.getElem?_drop]
    congr 2
    omega

theorem records_take (h : k ≤ l.length / 12) :
    (records l).take k = (List.range k).map (decode (l.take (12 * k))) := by
  rw [records, ← List.map_take, List.take_range, Nat.min_eq_left h]
  exact List.map_congr_left fun i hi => (decode_take (List.mem_range.mp hi) l).symm

theorem records_drop (k : ℕ) (l : List UInt8) : (records l).drop k = records (l.drop (12 * k)) := by
  refine List.ext_getElem? fun i => ?_
  rw [records, records, List.getElem?_drop, List.getElem?_map, List.getElem?_map, List.length_drop]
  have hn : (l.length - 12 * k) / 12 = l.length / 12 - k := by omega
  by_cases hi : k + i < l.length / 12
  · rw [List.getElem?_range hi, List.getElem?_range (by omega)]
    simp [decode_drop]
  · have h1 : (List.range (l.length / 12))[k + i]? = none :=
      List.getElem?_eq_none (by simpa using hi)
    have h2 : (List.range ((l.length - 12 * k) / 12))[i]? = none :=
      List.getElem?_eq_none (by simp; omega)
    rw [h1, h2, Option.map_none, Option.map_none]

/-! ### What is loaded from one file -/

/-- The requests, if there is room for them. -/
def deliver (requests_ : List Request) : Except Fault (List Request) :=
  if requests_.length ≤ capacity then .ok requests_ else .error .deref

theorem deliver_bind {f : List Request → Except Fault (List Request)}
    (hf : A.length ≤ capacity → f A = deliver (A ++ B)) : (deliver A >>= f) = deliver (A ++ B) := by
  unfold deliver at hf ⊢
  split_ifs at hf ⊢ with h h' h'
  · rw [ok_bind, hf h]
  · rw [ok_bind, hf h]
  · rw [List.length_append] at h'
    omega
  · rfl

theorem store_eq (h : 12 * (i + k) ≤ l.length) (hc : requests_.length ≤ capacity) :
    store l k i requests_ = deliver (requests_ ++ (List.range' i k).map (decode l)) := by
  induction k generalizing i requests_ with
  | zero => simp [store, deliver, hc]
  | succ k ih =>
    rw [store]
    by_cases hlt : requests_.length < capacity
    · rw [if_pos ⟨by omega, hlt⟩, ih (by omega) (by simp; omega), List.range'_succ, List.map_cons,
        List.append_assoc, List.singleton_append]
    · rw [if_neg (fun h => hlt h.2), deliver, if_neg (by simp; omega)]
      rfl

/-- How many records are loaded from a file of `n` records of which `t` make up the tail path, when
    `d` are still wanted. -/
def share (t d n : ℕ) : ℕ :=
  if d ≤ 1024 * (n / 1024) then 1024 * ((d + 1023) / 1024) else 1024 * (n / 1024) + t

theorem share_zero (t n : ℕ) : share t 0 n = 0 := by simp [share]

theorem share_block (h : 1024 ≤ n) (hd : 0 < d) :
    share t d n = 1024 + share t (d - 1024) (n - 1024) := by
  unfold share
  split_ifs <;> omega

theorem readBlocks_eq {file_request_num : ℤ} (hn : l.length = 12 * n)
    (ht : (file_request_num.tmod 1024).toNat ≤ n % 1024) {fuel : ℕ} (hf : n / 1024 < fuel)
    (hc : requests_.length ≤ capacity) :
    readBlocks num file_request_num fuel l requests_ = deliver (requests_ ++ (records l).take
      (share (file_request_num.tmod 1024).toNat (num - requests_.length) n)) := by
  induction fuel generalizing l n requests_ with
  | zero => omega
  | succ fuel ih =>
    have hln : l.length / 12 = n := by omega
    rw [readBlocks]
    by_cases hnum : requests_.length < num
    · rw [if_pos hnum]
      by_cases heof : l.length < 12 * 1024
      · -- the tail path
        rw [if_pos heof, store_eq (by omega) hc, share, if_neg (by omega),
          Nat.div_eq_of_lt (by omega), Nat.mul_zero, Nat.zero_add, records_take (by omega),
          List.range_eq_range']
        have hmap : ∀ k, (List.range' 0 k).map (decode (l.take (12 * k))) =
          (List.range' 0 k).map (decode l) :=
          fun k => List.map_congr_left fun i hi => decode_take (by simpa using hi) l
        rw [hmap]
      · -- a whole block, and then what is left of the file
        have hblock : (List.range' 0 1024).map (decode (l.take (12 * 1024))) =
            (records l).take 1024 := by
          rw [records_take (by omega), List.range_eq_range']
        rw [if_neg heof, store_eq (by simp; omega) hc, hblock, share_block (by omega) (by omega),
          List.take_add, ← List.append_assoc]
        refine deliver_bind fun hlen => ?_
        have hlen' : (requests_ ++ (records l).take 1024).length = requests_.length + 1024 := by
          simp
          omega
        rw [ih (n := n - 1024) (by simp; omega) (by omega) (by omega) hlen, records_drop, hlen',
          Nat.sub_add_eq]
    · rw [if_neg hnum, Nat.sub_eq_zero_of_le (by omega), share_zero]
      simp [deliver, hc]

theorem loadFile_eq {file_request_num : ℤ} (hn : file.length = 12 * n)
    (ht : (file_request_num.tmod 1024).toNat ≤ n % 1024) (hc : requests_.length ≤ capacity) :
    loadFile num file_request_num file requests_ = deliver (requests_ ++ (records file).take
      (share (file_request_num.tmod 1024).toNat (num - requests_.length) n)) :=
  readBlocks_eq hn ht (by omega) hc

/-! ### What is loaded from the files -/

namespace Source

/-- The records the tail path takes from a file of `n` records. -/
def tail (source : Source) (n : ℕ) : ℕ := ((source.file_request_num n).tmod 1024).toNat

/-- The tail path takes all that is left of the file, or nothing: nothing in the mode with one file,
    and for a file whose number of records is negative as an `int`. -/
theorem tail_cases (source : Source) (n : ℕ) : source.tail n = n % 1024 ∨ source.tail n = 0 := by
  cases source with
  | work_file file => exact Or.inr rfl
  | suffixs files =>
    simp only [tail, file_request_num, toInt]
    split_ifs with h
    · refine Or.inl ?_
      rw [Int.tmod_eq_emod_of_nonneg (by omega)]
      omega
    · refine Or.inr (Int.toNat_of_nonpos ?_)
      have := Int.tmod_nonneg (a := -((n : ℤ) % 2 ^ 32 - 2 ^ 32)) 1024 (by omega)
      rw [Int.neg_tmod] at this
      omega

theorem tail_le (source : Source) (n : ℕ) : source.tail n ≤ n % 1024 := by
  rcases source.tail_cases n with h | h <;> omega

/-- The files hold whole records. -/
def Whole (source : Source) : Prop := ∀ file ∈ source.files, 12 ∣ file.length

/-- The records of all files, in order. -/
def records (source : Source) : List Request := source.files.flatMap TraceLoader.records

/-- The numbers of records of the files. -/
def counts (source : Source) : List ℕ := source.files.map (·.length / 12)

end Source

/-- What is loaded from the files when `d` requests are still wanted. -/
def loaded (tail : ℕ → ℕ) : ℕ → List (List UInt8) → List Request
  | _, [] => []
  | d, file :: files =>
    (records file).take (share (tail (file.length / 12)) d (file.length / 12)) ++
      loaded tail (d - share (tail (file.length / 12)) d (file.length / 12)) files

theorem loaded_zero (tail : ℕ → ℕ) (files : List (List UInt8)) : loaded tail 0 files = [] := by
  induction files with
  | nil => rfl
  | cons file files ih => simp [loaded, share_zero, ih]

theorem share_le (ht : t ≤ n % 1024) : share t d n ≤ n := by
  unfold share
  split_ifs <;> omega

theorem foldlM_eq (hw : ∀ file ∈ files, 12 ∣ file.length) (hc : requests_.length ≤ capacity)
    (source : Source) :
    files.foldlM (fun requests_ file => if requests_.length ≥ num then
      (return requests_ : Except Fault _)
      else loadFile num (source.file_request_num (file.length / 12)) file requests_) requests_ =
    deliver (requests_ ++ loaded source.tail (num - requests_.length) files) := by
  induction files generalizing requests_ with
  | nil => simp [loaded, deliver, hc]
  | cons file files ih =>
    obtain ⟨n, hn⟩ := hw file (by simp)
    have hcount : file.length / 12 = n := by omega
    have hrest : ∀ f ∈ files, 12 ∣ f.length := fun f hf => hw f (by simp [hf])
    rw [List.foldlM_cons, loaded, hcount]
    by_cases hnum : requests_.length ≥ num
    · rw [if_pos hnum, pure_eq_ok, ok_bind, ih hrest hc, Nat.sub_eq_zero_of_le hnum, share_zero]
      simp [loaded_zero]
    · have hlen :
          ((TraceLoader.records file).take
            (share (source.tail n) (num - requests_.length) n)).length =
          share (source.tail n) (num - requests_.length) n := by
        rw [List.length_take, length_records, hcount, Nat.min_eq_left (share_le (source.tail_le n))]
      rw [if_neg hnum, loadFile_eq hn (source.tail_le n) hc, ← List.append_assoc]
      refine deliver_bind fun hc' => ?_
      rw [ih hrest hc', List.length_append, Source.tail, ← Source.tail, hlen, Nat.sub_add_eq]

theorem load_eq (hw : source.Whole) (num : ℕ) : load num source =
    (deliver (loaded source.tail num source.files)).map fun requests_ =>
    ⟨requests_, requests_.length⟩ := by
  unfold load
  rw [foldlM_eq hw (Nat.zero_le _)]
  simp only [List.nil_append, List.length_nil, Nat.sub_zero]
  cases deliver (loaded source.tail num source.files) <;> rfl

/-- The loader has read the first `num` records, or all if there are fewer. -/
def ReadsExactly (num : ℕ) (source : Source) : Prop :=
  ∃ t, load num source = .ok t ∧ t.requests_ = source.records.take num ∧
    t.queue_size = min num source.records.length

theorem readsExactly_iff (hw : source.Whole) : ReadsExactly num source ↔
    loaded source.tail num source.files = source.records.take num ∧ min num source.records.length ≤
    capacity := by
  have hload := load_eq hw num
  constructor
  · rintro ⟨t, ht, hreq, -⟩
    rw [hload, deliver] at ht
    split_ifs at ht with hc
    · cases ht
      refine ⟨hreq, ?_⟩
      rw [← List.length_take, ← hreq]
      exact hc
    · cases ht
  · rintro ⟨heq, hc⟩
    rw [heq, deliver, if_pos (by rwa [List.length_take])] at hload
    exact ⟨_, hload, rfl, List.length_take⟩

/-! ### When the trace is read exactly -/

/-- Reading the files stops where it should: every file that is read to its end has its tail loaded,
    and if the limit is inside a file, it is at the end of a block. -/
def Aligned (tail : ℕ → ℕ) : ℕ → List ℕ → Prop
  | _, [] => True
  | d, n :: counts => if n ≤ d then tail n = n % 1024 ∧ Aligned tail (d - n) counts else 1024 ∣ d

instance Aligned.decide (tail : ℕ → ℕ) : ∀ d counts, Decidable (Aligned tail d counts)
  | _, [] => .isTrue trivial
  | d, n :: counts =>
    have := Aligned.decide tail (d - n) counts
    inferInstanceAs (Decidable (if n ≤ d then tail n = n % 1024 ∧ Aligned tail (d - n) counts
      else 1024 ∣ d))

theorem Aligned.loaded_eq {tail : ℕ → ℕ} (ha : Aligned tail d (files.map (·.length / 12))) :
    loaded tail d files = (files.flatMap records).take d := by
  induction files generalizing d with
  | nil => simp [loaded]
  | cons file files ih =>
    rw [List.map_cons, Aligned] at ha
    rw [loaded, List.flatMap_cons, List.take_append, length_records]
    split_ifs at ha with hle
    · have hshare : share (tail (file.length / 12)) d (file.length / 12) = file.length / 12 := by
        rw [ha.1, share]
        split_ifs <;> omega
      have hall : ∀ {k}, file.length / 12 ≤ k → (records file).take k = records file :=
        fun h => List.take_of_length_le (by simpa using h)
      rw [hshare, ih ha.2, hall (le_refl _), hall hle]
    · have hshare : share (tail (file.length / 12)) d (file.length / 12) = d := by
        rw [share]
        split_ifs <;> omega
      rw [hshare, Nat.sub_self, loaded_zero, Nat.sub_eq_zero_of_le (by omega), List.take_zero]

/-- A file of `n` records that are zero, but for the key of record `k`. -/
def marked (n k : ℕ) : List UInt8 :=
  (List.range (12 * n)).map fun j => if j = 12 * k + 8 then 1 else 0

theorem length_marked (n k : ℕ) : (marked n k).length = 12 * n := by simp [marked]

theorem getD_marked (h : j < 12 * n) : (marked n k).getD j 0 = if j = 12 * k + 8 then 1 else 0 := by
  rw [List.getD_eq_getElem?_getD, marked, List.getElem?_map, List.getElem?_range h]
  rfl

theorem decode_marked (h : i < n) (k : ℕ) :
    decode (marked n k) i = ⟨.PUT, if i = k then 1 else 0⟩ := by
  have h4 : word (marked n k) (12 * i + 4) = 0 := by
    simp only [word, getD_marked (show 12 * i + 4 < 12 * n by omega),
      getD_marked (show 12 * i + 4 + 1 < 12 * n by omega),
      getD_marked (show 12 * i + 4 + 2 < 12 * n by omega),
      getD_marked (show 12 * i + 4 + 3 < 12 * n by omega)]
    rw [if_neg (by omega), if_neg (by omega), if_neg (by omega), if_neg (by omega)]
    rfl
  have h8 : word (marked n k) (12 * i + 8) = if i = k then 1 else 0 := by
    simp only [word, getD_marked (show 12 * i + 8 < 12 * n by omega),
      getD_marked (show 12 * i + 8 + 1 < 12 * n by omega),
      getD_marked (show 12 * i + 8 + 2 < 12 * n by omega),
      getD_marked (show 12 * i + 8 + 3 < 12 * n by omega)]
    rw [if_neg (show 12 * i + 8 + 1 ≠ 12 * k + 8 by omega),
      if_neg (show 12 * i + 8 + 2 ≠ 12 * k + 8 by omega),
      if_neg (show 12 * i + 8 + 3 ≠ 12 * k + 8 by omega)]
    by_cases hik : i = k
    · simp [hik]
    · rw [if_neg hik, if_neg (by omega)]
      rfl
  rw [decode, h4, h8]
  rfl

theorem records_marked (n k : ℕ) :
    records (marked n k) = (List.range n).map fun i => ⟨.PUT, if i = k then 1 else 0⟩ := by
  rw [records, length_marked, Nat.mul_div_cancel_left n (by omega)]
  exact List.map_congr_left fun i hi => decode_marked (List.mem_range.mp hi) k

/-- Files without a mark. -/
def blank (counts : List ℕ) : List (List UInt8) := counts.map fun n => marked n n

theorem loaded_blank {tail : ℕ → ℕ} (counts : List ℕ) (h : r ∈ loaded tail d (blank counts)) :
    r.key_ = 0 := by
  induction counts generalizing d with
  | nil => simp [blank, loaded] at h
  | cons n counts ih =>
    rw [blank, List.map_cons, loaded, List.mem_append] at h
    rcases h with h | h
    · have h := List.mem_of_mem_take h
      rw [records_marked, List.mem_map] at h
      obtain ⟨i, hi, rfl⟩ := h
      have := List.mem_range.mp hi
      exact if_neg (by omega)
    · exact ih h

/-- If a record after the last whole block is wanted and the tail path takes nothing, then some file
    loses a record. -/
theorem loaded_misses {tail : ℕ → ℕ} (counts : List ℕ) (ht : tail n = 0)
    (hd : 1024 * (n / 1024) < d) (hn : 1024 * (n / 1024) < n) :
    loaded tail d (marked n (1024 * (n / 1024)) :: blank counts) ≠
      ((marked n (1024 * (n / 1024)) :: blank counts).flatMap records).take d := by
  intro heq
  have hmark : (⟨.PUT, 1⟩ : Request) ∈
      ((marked n (1024 * (n / 1024)) :: blank counts).flatMap records).take d := by
    rw [List.flatMap_cons, records_marked, List.mem_take_iff_getElem]
    refine ⟨1024 * (n / 1024), by simp; omega, ?_⟩
    rw [List.getElem_append_left (by simpa using hn)]
    simp
  rw [← heq, loaded, length_marked, Nat.mul_div_cancel_left n (by omega), ht, share,
    if_neg (by omega), Nat.add_zero, records_marked, List.mem_append] at hmark
  rcases hmark with h | h
  · rw [← List.map_take, List.take_range, Nat.min_eq_left hn.le, List.mem_map] at h
    obtain ⟨i, hi, he⟩ := h
    have := List.mem_range.mp hi
    rw [if_neg (by omega)] at he
    cases he
  · exact absurd (loaded_blank counts h) (by simp)

/-- Files that are read exactly whatever they hold are aligned with the limit. -/
theorem aligned_of_loaded {tail : ℕ → ℕ} (ht : ∀ n, tail n = n % 1024 ∨ tail n = 0)
    (counts : List ℕ)
    (h : ∀ files : List (List UInt8), (∀ file ∈ files, 12 ∣ file.length) →
      files.map (·.length / 12) = counts → loaded tail d files = (files.flatMap records).take d) :
    Aligned tail d counts := by
  induction counts generalizing d with
  | nil => trivial
  | cons n counts ih =>
    have hblank : ∀ k, (marked n k :: blank counts).map (·.length / 12) = n :: counts := fun k => by
      simp [blank, length_marked, Function.comp_def]
    have hwhole : ∀ k, ∀ file ∈ marked n k :: blank counts, 12 ∣ file.length := by
      intro k file hfile
      rcases List.mem_cons.mp hfile with rfl | hfile
      · exact ⟨n, length_marked n k⟩
      · obtain ⟨m, -, rfl⟩ := List.mem_map.mp hfile
        exact ⟨m, length_marked m m⟩
    have hmiss : tail n = 0 → 1024 * (n / 1024) < d → ¬ 1024 * (n / 1024) < n := fun h0 hd hn =>
      loaded_misses counts h0 hd hn (h _ (hwhole _) (hblank _))
    rw [Aligned]
    split_ifs with hle
    · have htail : tail n = n % 1024 := by
        rcases ht n with h' | h'
        · exact h'
        · by_contra hne
          exact hmiss h' (by omega) (by omega)
      refine ⟨htail, ih fun files hw hc => ?_⟩
      have hshare : share (tail n) d n = n := by
        rw [htail, share]
        split_ifs <;> omega
      have heq := h (marked n n :: files) (fun file hfile => ?_) (by simp [length_marked, hc])
      · rw [loaded, length_marked, Nat.mul_div_cancel_left n (by omega), hshare, List.flatMap_cons,
          List.take_append, length_records, length_marked, Nat.mul_div_cancel_left n (by omega),
          List.take_of_length_le (by simp [length_marked]),
          List.take_of_length_le (by simpa [length_marked] using hle)] at heq
        exact List.append_cancel_left heq
      · rcases List.mem_cons.mp hfile with rfl | hfile
        · exact ⟨n, length_marked n n⟩
        · exact hw file hfile
    · -- the limit is inside the file: what is loaded from it is no longer than the limit
      by_contra hdvd
      have hlen := congrArg List.length (h _ (hwhole n) (hblank n))
      rw [loaded, length_marked, Nat.mul_div_cancel_left n (by omega), List.length_append,
        List.length_take, length_records, length_marked, Nat.mul_div_cancel_left n (by omega),
        List.length_take, Nat.min_eq_left (share_le (by rcases ht n with h' | h' <;> omega))]
        at hlen
      have hle' : share (tail n) d n ≤ d := by
        have := Nat.min_le_left d ((marked n n :: blank counts).flatMap records).length
        omega
      rw [share] at hle'
      split_ifs at hle' with hd
      · omega
      · rcases ht n with h' | h'
        · omega
        · exact hmiss h' (by omega) (by omega)

/-! ### The contract -/

namespace Source

/-- When the trace is read exactly: the reading stops where it should, and there is room. -/
def Exact (num : ℕ) (source : Source) : Prop :=
  Aligned source.tail num source.counts ∧ min num source.counts.sum ≤ capacity

/-- The same mode, and files of the same lengths. -/
def SameShape : Source → Source → Prop
  | .work_file f, .work_file g => f.length = g.length
  | .suffixs l, .suffixs l' => l.map List.length = l'.map List.length
  | _, _ => False

variable {source source' : Source}

theorem length_records (source : Source) : source.records.length = source.counts.sum := by
  rw [records, counts, List.length_flatMap]
  simp only [TraceLoader.length_records]

theorem SameShape.tail (h : SameShape source source') : source'.tail = source.tail := by
  cases source with
  | work_file f =>
    cases source' with
    | work_file g => rfl
    | suffixs l => cases h
  | suffixs l =>
    cases source' with
    | work_file g => cases h
    | suffixs l' => rfl

theorem SameShape.lengths (h : SameShape source source') :
    source'.files.map List.length = source.files.map List.length := by
  cases source <;> cases source' <;> simp_all [SameShape, files]

theorem SameShape.counts (h : SameShape source source') : source'.counts = source.counts := by
  have := congrArg (List.map (· / 12)) h.lengths
  simpa [Source.counts, Function.comp_def] using this

theorem SameShape.whole (h : SameShape source source') (hw : source.Whole) : source'.Whole := by
  intro file hfile
  have hmem : file.length ∈ source.files.map List.length := h.lengths ▸ List.mem_map_of_mem hfile
  obtain ⟨file', hfile', hlen⟩ := List.mem_map.mp hmem
  rw [← hlen]
  exact hw file' hfile'

theorem SameShape.refl (source : Source) : SameShape source source := by
  cases source <;> rfl

/-- Files of the same numbers of records give a source of the same shape. -/
theorem SameShape.of_counts {files : List (List UInt8)} (hw : source.Whole)
    (hw' : ∀ file ∈ files, 12 ∣ file.length) (hc : files.map (·.length / 12) = source.counts) :
    ∃ source', SameShape source source' ∧ source'.files = files := by
  have hlen : ∀ {l : List (List UInt8)}, (∀ file ∈ l, 12 ∣ file.length) →
      l.map List.length = (l.map (·.length / 12)).map (12 * ·) := by
    intro l hl
    rw [List.map_map]
    exact List.map_congr_left fun file hfile => (Nat.mul_div_cancel' (hl file hfile)).symm
  have heq : source.files.map List.length = files.map List.length := by
    rw [hlen hw, hlen hw', hc, Source.counts]
  cases source with
  | work_file f =>
    simp only [Source.files, List.map_cons, List.map_nil] at heq
    obtain ⟨g, rfl⟩ : ∃ g, files = [g] :=
      List.length_eq_one_iff.mp (by simpa using congrArg List.length heq.symm)
    exact ⟨.work_file g, by simpa [SameShape] using heq, rfl⟩
  | suffixs l => exact ⟨.suffixs files, heq, rfl⟩

end Source

/-- Files of given lengths are read exactly, whatever they hold, if and only if the limit is at the
    end of a block or file that the loader reads to its end, and the requests fit. -/
theorem trace_read_exactly_iff (num : ℕ) (hw : source.Whole) :
    (∀ source', source.SameShape source' → ReadsExactly num source') ↔ source.Exact num := by
  constructor
  · intro h
    have hself := (readsExactly_iff hw).mp (h source (.refl source))
    refine ⟨aligned_of_loaded source.tail_cases _ fun files hw' hc => ?_, ?_⟩
    · obtain ⟨source', hshape, rfl⟩ := Source.SameShape.of_counts hw hw' hc
      have := ((readsExactly_iff (hshape.whole hw)).mp (h source' hshape)).1
      rwa [hshape.tail] at this
    · rw [← source.length_records]
      exact hself.2
  · rintro ⟨ha, hc⟩ source' hshape
    refine (readsExactly_iff (hshape.whole hw)).mpr ⟨?_, ?_⟩
    · have := ha
      rw [← hshape.counts] at this
      rw [hshape.tail]
      exact this.loaded_eq
    · rw [source'.length_records, hshape.counts]
      exact hc

/-- One record: time 0, operation 7, key 9. -/
def oneRecord : List UInt8 := [0, 0, 0, 0, 7, 0, 0, 0, 9, 0, 0, 0]

theorem records_oneRecord : records oneRecord = [⟨.get, 9⟩] := by
  simp [records, oneRecord, decode, word, toInt, uint8_op_map, List.range_succ]

/-- A file of one block and six records, then one of which a block is wanted; and the latter
    alone. -/
theorem trace_read_exactly_two :
    ReadsExactly 2054 (.suffixs [marked 1030 1029, marked 2048 5]) ∧
    ReadsExactly 1024 (.work_file (marked 2048 5)) := by
  have hsuffixs : Source.Whole (.suffixs [marked 1030 1029, marked 2048 5]) := by
    simp only [Source.Whole, Source.files, List.forall_mem_cons, length_marked, Nat.dvd_mul_right]
    simp
  have hwork : Source.Whole (.work_file (marked 2048 5)) := by
    simp only [Source.Whole, Source.files, List.forall_mem_cons, length_marked, Nat.dvd_mul_right]
    simp
  have hx : Source.Exact 2054 (.suffixs [marked 1030 1029, marked 2048 5]) := by
    simp only [Source.Exact, Source.counts, Source.files, List.map_cons, List.map_nil,
      length_marked]
    decide
  have hx' : Source.Exact 1024 (.work_file (marked 2048 5)) := by
    simp only [Source.Exact, Source.counts, Source.files, List.map_cons, List.map_nil,
      length_marked]
    decide
  exact ⟨(trace_read_exactly_iff 2054 hsuffixs).mpr hx _ (.refl _),
    (trace_read_exactly_iff 1024 hwork).mpr hx' _ (.refl _)⟩

/-- The record in the mode with one file is not loaded; and of 1024 records all are loaded when one
    is wanted. -/
theorem tail_lost_and_limit_passed :
    load 5 (.work_file oneRecord) = .ok ⟨[], 0⟩ ∧ records oneRecord = [⟨.get, 9⟩] ∧
    ∃ t, load 1 (.suffixs [marked 1024 0]) = .ok t ∧ t.queue_size = 1024 := by
  have hone : Source.Whole (.work_file oneRecord) := by
    intro file hfile
    rw [List.mem_singleton.mp hfile]
    exact ⟨1, rfl⟩
  have hblock : Source.Whole (.suffixs [marked 1024 0]) := by
    intro file hfile
    rw [List.mem_singleton.mp hfile]
    exact ⟨1024, length_marked 1024 0⟩
  have hnone : loaded (Source.tail (.work_file oneRecord)) 5 [oneRecord] = [] := by
    simp [loaded, share, oneRecord, Source.tail, Source.file_request_num]
  refine ⟨?_, records_oneRecord, ?_⟩
  · rw [load_eq hone _, Source.files, hnone]
    rfl
  have hshare : ∀ t, share t 1 1024 = 1024 := fun t => by simp [share]
  obtain ⟨L, hL, hlen⟩ : ∃ L, loaded (Source.tail (.suffixs [marked 1024 0])) 1 [marked 1024 0] =
      L ∧
      L.length = 1024 := by
    refine ⟨_, rfl, ?_⟩
    rw [loaded, length_marked, Nat.mul_div_cancel_left _ (by omega), hshare]
    simp [loaded, length_marked]
  refine ⟨⟨L, L.length⟩, ?_, hlen⟩
  rw [load_eq hblock _, Source.files, hL, deliver,
    if_pos (hlen.trans_le (by unfold capacity; omega))]
  rfl

end TraceLoader
end FrozenHot
