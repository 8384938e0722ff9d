import FrozenHot.Trace.Loader
import Mathlib.Data.List.TakeWhile

/-! The loaders of the text traces (`trace_loader.h`): block requests of the MSR traces, and
    requests of the Twitter traces before they were turned into the binary format.

    `getline` gives the pieces of a file between its newlines, and the loop of `find` and `erase`
    those of a line between its commas; the last piece is what comes after the last of them. A piece
    that is looked up is not checked to be there, and a request is stored without a look at the end
    of the buffer: where the source goes out of bounds, so that anything may follow, the model stops
    with a fault. The result of a loader is what all lines add, cut at the limit. -/

namespace FrozenHot.TraceLoader
open Schemes

abbrev Text := List Char

/-- What successive calls of `getline` give, up to the one that sets the end-of-file flag. -/
def getlines (file : Text) : List Text := file.splitOn '\n'

def words (str : Text) : List Text := str.splitOn ','

/-- `words[i]`. -/
def wordAt (words : List Text) (i : ℕ) : Except Fault Text :=
  match words[i]? with
  | some w => return w
  | none => throw .deref

/-! ### Numbers -/

def isspace (c : Char) : Bool := c.toNat = 32 || 9 ≤ c.toNat && c.toNat ≤ 13

def isdigit (c : Char) : Bool := 48 ≤ c.toNat && c.toNat ≤ 57

/-- The number that the digits stand for. -/
def value (digits : Text) : ℕ := digits.foldl (fun v c => 10 * v + (c.toNat - 48)) 0

/-- `strtol` to the base 10: blanks, a sign, and the digits up to the first character that is none.
    A number that is too large gives the largest or the least `long`. -/
def strtol (s : Text) : ℤ :=
  match s.dropWhile isspace with
  | '-' :: s => max (-2 ^ 63) (-value (s.takeWhile isdigit))
  | '+' :: s => min (2 ^ 63 - 1) (value (s.takeWhile isdigit))
  | s => min (2 ^ 63 - 1) (value (s.takeWhile isdigit))

/-! ### The MSR traces -/

/-- The `for` loop over the blocks of a line; `index++` may wrap. -/
def loadBlocks (num : ℕ) (last : ℤ) :
    (fuel : ℕ) → (index : ℤ) → List Request → Except Fault (List Request)
  | 0, _, _ => throw .diverge
  | fuel + 1, index, requests_ =>
    if index ≤ last ∧ requests_.length < num then
      if requests_.length < capacity then
        loadBlocks num last fuel (toInt (index + 1))
          (requests_ ++ [⟨.READ, (index % 2 ^ 32).toNat⟩])
      else throw .deref
    else return requests_

/-- `start` and `end`, from the byte offset and the size. The sum is a `long` that may wrap. -/
def blockRange (offset size : ℤ) : ℤ × ℤ :=
  (toInt (offset / 4096), toInt (toLong (offset + size - 1) / 4096))

/-- What is done with the words of a line. -/
def msrEntry (num : ℕ) (requests_ : List Request) (words : List Text) :
    Except Fault (List Request) := do
  let offset ← wordAt words 4
  let size ← wordAt words 5
  let range := blockRange (strtol offset) (strtol size)
  let op ← wordAt words 3
  if op = "Read".toList then loadBlocks num range.2 (num + 1) range.1 requests_
  -- A write is regarded as a read.
  else if op = "Write".toList then loadBlocks num range.2 (num + 1) range.1 requests_
  else return requests_

def msrLine (num : ℕ) (requests_ : List Request) (str : Text) : Except Fault (List Request) :=
  if str = [] then return requests_ else msrEntry num requests_ (words str)

/-- The loop over the lines of a file, which ends early at the limit. -/
def readLines (num : ℕ) (line : List Request → Text → Except Fault (List Request))
    (requests_ : List Request) (lines : List Text) : Except Fault (List Request) :=
  lines.foldlM (fun requests_ str => if requests_.length < num then line requests_ str else
    return requests_) requests_

/-- The constructor for an MSR trace. -/
def loadMSR (num : ℕ) (file : Text) : Except Fault TraceLoader := do
  let requests_ ← readLines num (msrLine num) [] (getlines file)
  return ⟨requests_, requests_.length⟩

/-! ### The Twitter traces -/

/-- A `char` has a sign. -/
def charCode (c : Char) : ℤ := if c.toNat < 128 then c.toNat else c.toNat - 256

/-- One turn of the loop of `string_hash`, with `hash_value` and `p_pow`. A factor below zero
    becomes a large `unsigned long`. -/
def hashStep (acc : ℕ × ℕ) (c : Char) : ℕ × ℕ :=
  ((acc.1 + ((charCode c - 48 + 1) % 2 ^ 64).toNat * acc.2) % 2 ^ 64 % 1000000009,
    acc.2 * 31 % 1000000009)

def string_hash (s : Text) : ℕ := (s.foldl hashStep (0, 1)).1

def operation (op : Text) : Option Operation :=
  if op = "set".toList then some .set else if op = "add".toList then some .add
  else if op = "replace".toList then some .replace else if op = "append".toList then some .append
  else if op = "prepend".toList then some .prepend else if op = "cas".toList then some .cas
  else if op = "get".toList then some .get else if op = "gets".toList then some .gets
  else if op = "delete".toList then some .delete_ else if op = "incr".toList then some .incr
  else if op = "decr".toList then some .decr else none

/-- What is done with the words of a line. -/
def twitterEntry (requests_ : List Request) (words : List Text) : Except Fault (List Request) := do
  let op ← wordAt words 5
  let key ← wordAt words 1
  match operation op with
  | some opt =>
    if requests_.length < capacity then return requests_ ++ [⟨opt, string_hash key⟩]
      else throw .deref
  | none => return requests_

def twitterLine (requests_ : List Request) (str : Text) : Except Fault (List Request) :=
  if str = [] then return requests_ else twitterEntry requests_ (words str)

/-- The constructor for a Twitter trace, with the files it opens. -/
def loadTwitter (num : ℕ) (files : List Text) : Except Fault TraceLoader := do
  let requests_ ← files.foldlM (fun requests_ file =>
    if requests_.length ≥ num then return requests_ else readLines num twitterLine requests_
    (getlines file)) []
  return ⟨requests_, requests_.length⟩

/-! ### What a loader takes from its lines -/

variable {num : ℕ} {line : List Request → Text → Except Fault (List Request)}
    {parse : Text → Option (List Request)}
variable {requests_ new : List Request} {lines : List Text} {str : Text}

/-- The requests with those of a line, up to the limit, if the buffer holds them; a line that cannot
    be parsed has none. -/
def addUpTo (num : ℕ) (requests_ : List Request) :
    Option (List Request) → Except Fault (List Request)
  | some new => deliver ((requests_ ++ new).take num)
  | none => .error .deref

theorem addUpTo_nil (h : requests_.length ≤ num) (hcap : requests_.length ≤ capacity) :
    addUpTo num requests_ (some []) = .ok requests_ := by
  rw [addUpTo, List.append_nil, List.take_of_length_le h, deliver, if_pos hcap]

/-- The line adds what `parse` gives. -/
def Adds (num : ℕ) (line : List Request → Text → Except Fault (List Request))
    (parse : Text → Option (List Request)) (str : Text) : Prop :=
  ∀ requests_ : List Request, requests_.length < num → requests_.length ≤ capacity →
    line requests_ str = addUpTo num requests_ (parse str)

/-- The lines before the first one that cannot be parsed. -/
def readable (parse : Text → Option (List Request)) (lines : List Text) : List Text :=
  lines.takeWhile fun str => (parse str).isSome

/-- What they add. -/
def contents (parse : Text → Option (List Request)) (lines : List Text) : List Request :=
  (readable parse lines).flatMap fun str => (parse str).getD []

theorem readable_cons_none (h : parse str = none) : readable parse (str :: lines) = [] := by
  rw [readable, List.takeWhile_cons, h]
  rfl

theorem readable_cons_some {new : List Request} (h : parse str = some new) :
    readable parse (str :: lines) = str :: readable parse lines := by
  rw [readable, List.takeWhile_cons, h]
  rfl

theorem take_append_take (A B : List Request) : (A.take num ++ B).take num = (A ++ B).take num := by
  rw [List.take_append, List.take_append, List.take_take, Nat.min_self, List.length_take]
  by_cases h : num ≤ A.length
  · rw [Nat.min_eq_left h, Nat.sub_self, Nat.sub_eq_zero_of_le h]
  · rw [Nat.min_eq_right (by omega)]

theorem readLines_full (h : num ≤ requests_.length) :
    readLines num line requests_ lines = .ok requests_ := by
  induction lines with
  | nil => rfl
  | cons str lines ih =>
    rw [readLines, List.foldlM_cons, if_neg (by omega)]
    exact ih

theorem readLines_cons (h : requests_.length < num) :
    readLines num line requests_ (str :: lines) =
      line requests_ str >>= fun requests_ => readLines num line requests_ lines := by
  rw [readLines, List.foldlM_cons, if_pos h]
  rfl

theorem contents_cons_some (h : parse str = some new) :
    contents parse (str :: lines) = new ++ contents parse lines := by
  rw [contents, readable_cons_some h, List.flatMap_cons, h]
  rfl

/-- The loop fails at the first line that cannot be parsed, unless the limit is reached before it,
    and where the buffer ends. -/
theorem readLines_eq (hadds : ∀ str ∈ lines, Adds num line parse str)
    (hlen : requests_.length ≤ num) (hcap : requests_.length ≤ capacity) :
    readLines num line requests_ lines =
      if readable parse lines = lines ∨ num ≤ (requests_ ++ contents parse lines).length then
        deliver ((requests_ ++ contents parse lines).take num)
      else .error .deref := by
  induction lines generalizing requests_ with
  | nil =>
    have hread : readable parse [] = [] := rfl
    rw [if_pos (Or.inl hread)]
    exact (addUpTo_nil hlen hcap).symm
  | cons str lines ih =>
    by_cases hfull : requests_.length < num
    · rw [readLines_cons hfull, hadds str List.mem_cons_self requests_ hfull hcap]
      cases hparse : parse str with
      | none =>
        rw [contents, readable_cons_none hparse, List.flatMap_nil, List.append_nil, if_neg]
        · rfl
        · rintro (h | h)
          · cases h
          · omega
      | some new =>
        rw [readable_cons_some hparse, contents_cons_some hparse, addUpTo, ← List.append_assoc,
          deliver]
        split
        · next hroom =>
          rw [ok_bind, ih (fun s hs => hadds s (List.mem_cons_of_mem _ hs))
            (List.length_take_le _ _) hroom, take_append_take]
          refine if_congr (or_congr (List.cons_inj_right str).symm ?_) rfl rfl
          simp only [List.length_append, List.length_take]
          omega
        · -- the buffer ends before the requests of the line
          next hroom =>
          rw [List.length_take] at hroom
          have hlong : ¬ ((requests_ ++ new ++ contents parse lines).take num).length ≤
              capacity := by
            rw [List.length_take, List.length_append]
            omega
          rw [deliver, if_neg hlong, ite_self]
          rfl
    · rw [readLines_full (by omega), if_pos (Or.inr (by rw [List.length_append]; omega)),
        List.take_append_of_le_length (by omega), List.take_of_length_le hlen, deliver, if_pos hcap]

/-- Several files are read like one that has the lines of all. -/
theorem foldlM_readLines (files : List Text) : files.foldlM (fun requests_ file =>
      if requests_.length ≥ num then return requests_ else
      readLines num line requests_ (getlines file)) requests_ =
    readLines num line requests_ (files.flatMap getlines) := by
  induction files generalizing requests_ with
  | nil => rfl
  | cons file files ih =>
    have hfile : (if requests_.length ≥ num then return requests_ else readLines num line requests_
        (getlines file)) =
        readLines num line requests_ (getlines file) := by
      split
      · next h => exact (readLines_full h).symm
      · rfl
    rw [List.foldlM_cons, hfile, List.flatMap_cons]
    simp only [ih]
    exact (List.foldlM_append ..).symm

/-! ### The lines of an MSR trace -/

/-- The requests for the blocks of a range. -/
def blocks (first last : ℤ) : List Request :=
  (List.range (last + 1 - first).toNat).map fun i => ⟨.READ, ((first + i) % 2 ^ 32).toNat⟩

theorem blocks_of_lt {first last : ℤ} (h : last < first) : blocks first last = [] := by
  rw [blocks, Int.toNat_of_nonpos (by omega)]
  rfl

theorem blocks_of_le {first last : ℤ} (h : first ≤ last) :
    blocks first last = ⟨.READ, (first % 2 ^ 32).toNat⟩ :: blocks (first + 1) last := by
  have hlen : (last + 1 - first).toNat = (last + 1 - (first + 1)).toNat + 1 := by omega
  have hshift : ∀ i : ℕ, first + ((i + 1 : ℕ) : ℤ) = first + 1 + i := by
    intro i
    omega
  rw [blocks, hlen, List.range_succ_eq_map, List.map_cons, List.map_map, blocks]
  simp only [Function.comp_def, Nat.succ_eq_add_one, hshift, Int.natCast_zero, Int.add_zero]

/-- The loop ends at the last block, at the limit or where the buffer ends, except that it cannot
    count beyond the greatest `int`. -/
theorem loadBlocks_eq {last : ℤ} (hlast : last < 2 ^ 31 - 1) :
    ∀ (fuel : ℕ) (index : ℤ) (requests_ : List Request), -2 ^ 31 ≤ index → requests_.length ≤ num →
      requests_.length ≤ capacity → num < requests_.length + fuel →
      loadBlocks num last fuel index requests_ =
      addUpTo num requests_ (some (blocks index last)) := by
  intro fuel
  induction fuel with
  | zero =>
    intro index requests_ _ hlen _ hfuel
    omega
  | succ fuel ih =>
    intro index requests_ hindex hlen hcap hfuel
    rw [loadBlocks]
    split
    · next h =>
      rw [blocks_of_le h.1]
      split
      · next hroom =>
        have hsnoc : (requests_ ++ [(⟨.READ, (index % 2 ^ 32).toNat⟩ : Request)]).length =
            requests_.length + 1 := by
          rw [List.length_append, List.length_singleton]
        rw [toInt_eq (by omega) (by omega), ih (index + 1) _ (by omega) (by omega) (by omega)
          (by omega), addUpTo, addUpTo, List.append_assoc, List.singleton_append]
      · next hroom =>
        rw [addUpTo, deliver, if_neg]
        · rfl
        · rw [List.length_take, List.length_append, List.length_cons]
          omega
    · next h =>
      rcases not_and_or.mp h with h | h
      · rw [blocks_of_lt (by omega), addUpTo_nil hlen hcap]
        rfl
      · rw [addUpTo, List.take_append_of_le_length (by omega), List.take_of_length_le hlen, deliver,
          if_pos hcap]
        rfl

theorem wordAt_of_lt {words : List Text} {i : ℕ} (h : i < words.length) :
    wordAt words i = .ok (words.getD i []) := by
  rw [wordAt, List.getElem?_eq_getElem h, List.getD_eq_getElem _ _ h]
  rfl

theorem wordAt_of_le {words : List Text} {i : ℕ} (h : words.length ≤ i) :
    wordAt words i = .error .deref := by
  rw [wordAt, List.getElem?_eq_none h]
  rfl

/-- The blocks that the words of a line name. -/
def msrBlocks (words : List Text) : ℤ × ℤ :=
  blockRange (strtol (words.getD 4 [])) (strtol (words.getD 5 []))

def isRequest (op : Text) : Prop := op = "Read".toList ∨ op = "Write".toList

instance (op : Text) : Decidable (isRequest op) := inferInstanceAs (Decidable (_ ∨ _))

/-- What the words of a line add. -/
def msrParse (words : List Text) : Option (List Request) :=
  if words.length < 6 then none
  else if isRequest (words.getD 3 []) then some (blocks (msrBlocks words).1 (msrBlocks words).2)
  else some []

theorem msrEntry_eq {words : List Text} (hlast : (msrBlocks words).2 < 2 ^ 31 - 1)
    (hlen : requests_.length < num) (hcap : requests_.length ≤ capacity) :
    msrEntry num requests_ words = addUpTo num requests_ (msrParse words) := by
  rw [msrEntry, msrParse]
  by_cases hshort : words.length < 6
  · rw [if_pos hshort]
    by_cases hfour : 4 < words.length
    · rw [wordAt_of_lt hfour, ok_bind, wordAt_of_le (by omega)]
      rfl
    · rw [wordAt_of_le (by omega)]
      rfl
  · have hload := loadBlocks_eq hlast (num + 1) (msrBlocks words).1 requests_ (neg_le_toInt _)
      hlen.le hcap (by omega)
    rw [msrBlocks] at hload
    rw [if_neg hshort, wordAt_of_lt (by omega), ok_bind, wordAt_of_lt (by omega), ok_bind,
      wordAt_of_lt (by omega), ok_bind, hload]
    by_cases hop : isRequest (words.getD 3 [])
    · rw [if_pos hop]
      rcases hop with hop | hop
      · rw [if_pos hop]
        rfl
      · rw [hop, if_neg (by decide), if_pos rfl]
        rfl
    · rw [if_neg hop, addUpTo_nil hlen.le hcap, if_neg fun h => hop (Or.inl h),
        if_neg fun h => hop (Or.inr h)]
      rfl

/-- What a line adds whose words add what `parse` gives. -/
def parseLine (parse : List Text → Option (List Request)) (str : Text) : Option (List Request) :=
  if str = [] then some [] else parse (words str)

/-- A line adds what its words add; an empty one adds nothing. -/
theorem adds_of_words {parseRow : List Text → Option (List Request)}
    {entry : List Request → List Text → Except Fault (List Request)}
    (hline : ∀ requests_, line requests_ str = if str = [] then .ok requests_ else
      entry requests_ (words str))
    (hentry : ∀ requests_, requests_.length < num → requests_.length ≤ capacity →
      entry requests_ (words str) = addUpTo num requests_ (parseRow (words str))) :
    Adds num line (parseLine parseRow) str := by
  intro requests_ hlen hcap
  rw [hline, parseLine]
  split
  · rw [addUpTo_nil hlen.le hcap]
  · exact hentry requests_ hlen hcap

theorem msrLine_adds (hlast : (msrBlocks (words str)).2 < 2 ^ 31 - 1) :
    Adds num (msrLine num) (parseLine msrParse) str :=
  adds_of_words (fun _ => rfl) fun _ hlen hcap => msrEntry_eq hlast hlen hcap

/-- The words of a line of a Twitter trace; an unknown operation is passed over. -/
def twitterParse (words : List Text) : Option (List Request) :=
  if words.length < 6 then none
  else match operation (words.getD 5 []) with
    | some opt => some [⟨opt, string_hash (words.getD 1 [])⟩]
    | none => some []

theorem twitterEntry_eq {words : List Text} (hlen : requests_.length < num)
    (hcap : requests_.length ≤ capacity) :
    twitterEntry requests_ words = addUpTo num requests_ (twitterParse words) := by
  rw [twitterEntry, twitterParse]
  by_cases hshort : words.length < 6
  · rw [if_pos hshort, wordAt_of_le (by omega)]
    rfl
  · rw [if_neg hshort, wordAt_of_lt (by omega), ok_bind, wordAt_of_lt (by omega), ok_bind]
    cases operation (words.getD 5 []) with
    | none =>
      dsimp only
      rw [addUpTo_nil hlen.le hcap]
      rfl
    | some opt =>
      dsimp only
      have hsnoc : (requests_ ++ [(⟨opt, string_hash (words.getD 1 [])⟩ : Request)]).length =
          requests_.length + 1 := by
        rw [List.length_append, List.length_singleton]
      rw [addUpTo, List.take_of_length_le (by omega), deliver]
      exact if_congr (by omega) rfl rfl

theorem twitterLine_adds : Adds num twitterLine (parseLine twitterParse) str :=
  adds_of_words (fun _ => rfl) fun _ hlen hcap => twitterEntry_eq hlen hcap

/-! ### Any text -/

/-- A loader with these requests. -/
def queue (requests_ : List Request) : TraceLoader := ⟨requests_, requests_.length⟩

/-- What a loader makes of the lines. -/
def outcome (num : ℕ) (parse : Text → Option (List Request)) (lines : List Text) :
    Except Fault TraceLoader :=
  if readable parse lines = lines ∨ num ≤ (contents parse lines).length then
    (deliver ((contents parse lines).take num)).map queue
  else .error .deref

theorem queue_readLines (hadds : ∀ str ∈ lines, Adds num line parse str) :
    (readLines num line [] lines >>= fun requests_ => .ok (queue requests_)) =
    outcome num parse lines := by
  rw [readLines_eq hadds (Nat.zero_le _) (Nat.zero_le _), outcome, List.nil_append]
  split
  · cases deliver ((contents parse lines).take num) <;> rfl
  · rfl

/-- The MSR loader on any text in which no line reaches up to the last block number of an `int`. -/
theorem loadMSR_eq {file : Text}
    (hlast : ∀ str ∈ getlines file, (msrBlocks (words str)).2 < 2 ^ 31 - 1) :
    loadMSR num file = outcome num (parseLine msrParse) (getlines file) :=
  queue_readLines fun str hstr => msrLine_adds (hlast str hstr)

/-- The Twitter loader on any texts. -/
theorem loadTwitter_eq (files : List Text) :
    loadTwitter num files = outcome num (parseLine twitterParse) (files.flatMap getlines) := by
  rw [loadTwitter, foldlM_readLines]
  exact queue_readLines fun _ _ => twitterLine_adds

/-! ### Where a loader goes out of bounds -/

theorem readable_isSome {s : Text} (h : s ∈ readable parse lines) : (parse s).isSome :=
  List.mem_takeWhile_imp (p := fun str => (parse str).isSome) h

/-- All lines can be parsed, or there is a first one that cannot. -/
theorem readable_cases (parse : Text → Option (List Request)) (lines : List Text) :
    readable parse lines = lines ∨ ∃ str B, lines = readable parse lines ++ str :: B ∧
    parse str = none := by
  induction lines with
  | nil => exact Or.inl rfl
  | cons str lines ih =>
    cases hparse : parse str with
    | none => exact Or.inr ⟨str, lines, by rw [readable_cons_none hparse, List.nil_append], hparse⟩
    | some new =>
      rw [readable_cons_some hparse]
      rcases ih with ih | ⟨bad, B, hB, hbad⟩
      · exact Or.inl (by rw [ih])
      · exact Or.inr ⟨bad, B, by rw [List.cons_append, ← hB], hbad⟩

theorem readable_append {A B : List Text} (hA : ∀ s ∈ A, (parse s).isSome) :
    readable parse (A ++ B) = A ++ readable parse B := List.takeWhile_append_of_pos hA

/-- The requests of the lines. -/
def requestsOf (parseRow : List Text → Option (List Request)) (lines : List Text) : List Request :=
  lines.flatMap fun s => (parseLine parseRow s).getD []

/-- Every line is empty or has six fields. -/
def Complete (lines : List Text) : Prop := ∀ s ∈ lines, s = [] ∨ 6 ≤ (words s).length

/-- Before it has enough requests, the loader comes to a line with too few fields, and looks up a
    field behind the last one. -/
def ShortLine (num : ℕ) (parseRow : List Text → Option (List Request)) (lines : List Text) : Prop :=
  ∃ A str B, lines = A ++ str :: B ∧ str ≠ [] ∧ (words str).length < 6 ∧ Complete A ∧
    (requestsOf parseRow A).length < num

/-- Before it has enough requests, the loader comes to the end of the buffer, and stores a request
    behind it. -/
def FullBuffer (num : ℕ) (parseRow : List Text → Option (List Request)) (lines : List Text) :
    Prop :=
  ∃ A B, lines = A ++ B ∧ Complete A ∧ capacity < min num (requestsOf parseRow A).length

variable {parseRow : List Text → Option (List Request)}

theorem parseLine_eq_none_iff (hrow : ∀ words, parseRow words = none ↔ words.length < 6)
    (str : Text) :
    parseLine parseRow str = none ↔ str ≠ [] ∧ (words str).length < 6 := by
  rw [parseLine]
  split
  · next h => exact iff_of_false (by simp) fun hbad => hbad.1 h
  · next h => rw [hrow, and_iff_right h]

theorem complete_iff (hrow : ∀ words, parseRow words = none ↔ words.length < 6) :
    Complete lines ↔ ∀ s ∈ lines, (parseLine parseRow s).isSome := by
  refine forall₂_congr fun s _ => ?_
  rw [Option.isSome_iff_ne_none, Ne, parseLine_eq_none_iff hrow, not_and_or, not_not, not_lt]

theorem length_contents_append {A B : List Text} (hA : ∀ s ∈ A, (parse s).isSome) :
    (A.flatMap fun s => (parse s).getD []).length ≤ (contents parse (A ++ B)).length := by
  rw [contents, readable_append hA, List.flatMap_append, List.length_append]
  omega

theorem ShortLine.outcome_error (hrow : ∀ words, parseRow words = none ↔ words.length < 6)
    (h : ShortLine num parseRow lines) :
    outcome num (parseLine parseRow) lines = .error .deref := by
  obtain ⟨A, str, B, rfl, hne, hshort, hA, hlen⟩ := h
  have hstr := (parseLine_eq_none_iff hrow str).mpr ⟨hne, hshort⟩
  have heq : readable (parseLine parseRow) (A ++ str :: B) = A := by
    rw [readable_append ((complete_iff hrow).mp hA), readable_cons_none hstr, List.append_nil]
  rw [outcome, contents, heq, if_neg]
  rintro (h | h)
  · have hcount := congrArg List.length h
    rw [List.length_append, List.length_cons] at hcount
    omega
  · exact absurd h (not_le.mpr hlen)

theorem FullBuffer.outcome_error (hrow : ∀ words, parseRow words = none ↔ words.length < 6)
    (h : FullBuffer num parseRow lines) :
    outcome num (parseLine parseRow) lines = .error .deref := by
  obtain ⟨A, B, rfl, hA, hfull⟩ := h
  have hle := length_contents_append (B := B) ((complete_iff hrow).mp hA)
  rw [requestsOf] at hfull
  have hlong : ¬ ((contents (parseLine parseRow) (A ++ B)).take num).length ≤ capacity := by
    rw [List.length_take]
    omega
  rw [outcome, deliver, if_neg hlong]
  exact ite_self _

theorem outcome_error_iff (hrow : ∀ words, parseRow words = none ↔ words.length < 6) :
    (∃ e, outcome num (parseLine parseRow) lines = .error e) ↔
      ShortLine num parseRow lines ∨ FullBuffer num parseRow lines := by
  have hread : Complete (readable (parseLine parseRow) lines) :=
    (complete_iff hrow).mpr fun s hs => readable_isSome hs
  constructor
  · rintro ⟨e, h⟩
    rw [outcome] at h
    split at h
    · rw [deliver] at h
      split at h
      · cases h
      · next hout =>
        rw [List.length_take, not_le] at hout
        obtain ⟨B, hB⟩ := List.takeWhile_prefix (l := lines) fun str =>
          (parseLine parseRow str).isSome
        exact Or.inr ⟨_, B, hB.symm, hread, hout⟩
    · -- the line behind those that can be parsed is short
      next hout =>
      rw [not_or, not_le] at hout
      obtain ⟨str, B, hB, hstr⟩ := (readable_cases (parseLine parseRow) lines).resolve_left hout.1
      obtain ⟨hne, hshort⟩ := (parseLine_eq_none_iff hrow str).mp hstr
      exact Or.inl ⟨_, str, B, hB, hne, hshort, hread, hout.2⟩
  · rintro (h | h)
    · exact ⟨_, h.outcome_error hrow⟩
    · exact ⟨_, h.outcome_error hrow⟩

theorem msrParse_eq_none_iff (words : List Text) : msrParse words = none ↔ words.length < 6 := by
  rw [msrParse]
  split
  · next h => exact iff_of_true rfl h
  · next h =>
    refine iff_of_false ?_ h
    split <;> simp

theorem twitterParse_eq_none_iff (words : List Text) :
    twitterParse words = none ↔ words.length < 6 := by
  rw [twitterParse]
  split
  · next h => exact iff_of_true rfl h
  · next h =>
    refine iff_of_false ?_ h
    split <;> simp

/-- Both loaders go out of bounds on exactly the texts in which they come to a line of fewer than
    six fields, or to the end of the buffer, before they have enough requests: they look fields up
    and store requests without a check. -/
theorem text_overruns_iff (num : ℕ) :
    (∀ file, (∀ str ∈ getlines file, (msrBlocks (words str)).2 < 2 ^ 31 - 1) →
      ((∃ e, loadMSR num file = .error e) ↔
        ShortLine num msrParse (getlines file) ∨ FullBuffer num msrParse (getlines file))) ∧
    ∀ files, (∃ e, loadTwitter num files = .error e) ↔
      ShortLine num twitterParse (files.flatMap getlines) ∨
      FullBuffer num twitterParse (files.flatMap getlines) := by
  constructor
  · intro file hlast
    rw [loadMSR_eq hlast]
    exact outcome_error_iff msrParse_eq_none_iff
  · intro files
    rw [loadTwitter_eq]
    exact outcome_error_iff twitterParse_eq_none_iff

/-- A comma is missing in the second line. -/
theorem text_overruns_iff_two :
    ∃ e, loadTwitter 2 ["1,k,1,1,c,get,0\n2,k,1,1,c set\n".toList] = .error e := by
  refine ((text_overruns_iff 2).2 _).mpr (Or.inl ?_)
  have hfirst : Complete ["1,k,1,1,c,get,0".toList] := by
    intro s hs
    rw [List.mem_singleton.mp hs]
    decide
  exact ⟨_, "2,k,1,1,c set".toList, [[]], by decide, by decide, by decide, hfirst, by decide⟩

end FrozenHot.TraceLoader
