import FrozenHot.Trace.Text
import Mathlib.Data.Nat.Digits.Lemmas

/-! Text traces that were written from records are read back.

    Rows of fields make a file, with a comma between two fields and a newline after each row. A
    loader gets the rows back if no field has a comma or a newline in it, and the numbers in them
    from their decimal digits. -/

namespace FrozenHot.TraceLoader
open Schemes

variable {num : ℕ} {parse : Text → Option (List Request)} {lines : List Text}

/-- A line with the fields. -/
def csv (fields : List Text) : Text := [','].intercalate fields

/-- A file with a line for each row. -/
def textFile (rows : List (List Text)) : Text := rows.flatMap fun row => csv row ++ ['\n']

/-- The fields of a row: at least two, without a comma or a newline in them. -/
structure Clean (row : List Text) : Prop where
  two : 2 ≤ row.length
  comma : ∀ w ∈ row, ',' ∉ w
  newline : ∀ w ∈ row, '\n' ∉ w

theorem words_csv {row : List Text} (h : Clean row) : words (csv row) = row := by
  refine List.splitOn_intercalate ',' h.comma ?_
  rintro rfl
  exact absurd h.two (by decide)

theorem csv_cons_cons (v w : Text) (row : List Text) :
    csv (v :: w :: row) = v ++ ',' :: csv (w :: row) := by
  simp [csv, List.intercalate, List.intersperse]

theorem csv_ne_nil {row : List Text} (h : Clean row) : csv row ≠ [] := by
  match row, h.two with
  | v :: w :: row, _ =>
    rw [csv_cons_cons]
    simp

theorem newline_notMem_csv {row : List Text} (h : ∀ w ∈ row, '\n' ∉ w) : '\n' ∉ csv row := by
  induction row with
  | nil => simp [csv, List.intercalate]
  | cons v row ih =>
    cases row with
    | nil => simpa [csv, List.intercalate] using h
    | cons w row =>
      have hv := h v List.mem_cons_self
      have htail := ih fun x hx => h x (List.mem_cons_of_mem _ hx)
      rw [csv_cons_cons, List.mem_append, List.mem_cons]
      rintro (h | h | h)
      · exact hv h
      · exact absurd h (by decide)
      · exact htail h

theorem textFile_eq (rows : List (List Text)) :
    textFile rows = ['\n'].intercalate (rows.map csv ++ [[]]) := by
  induction rows with
  | nil => rfl
  | cons row rows ih =>
    have hne : rows.map csv ++ [[]] ≠ [] := by simp
    obtain ⟨l, ls, hls⟩ := List.exists_cons_of_ne_nil hne
    rw [textFile, List.flatMap_cons, ← textFile, ih, List.map_cons, List.cons_append, hls]
    simp [List.intercalate, List.intersperse]

theorem getlines_textFile {rows : List (List Text)} (h : ∀ row ∈ rows, Clean row) :
    getlines (textFile rows) = rows.map csv ++ [[]] := by
  rw [textFile_eq]
  refine List.splitOn_intercalate '\n' ?_ (by simp)
  intro l hl
  rcases List.mem_append.mp hl with hl | hl
  · obtain ⟨row, hrow, rfl⟩ := List.mem_map.mp hl
    exact newline_notMem_csv (h row hrow).newline
  · rw [List.mem_singleton.mp hl]
    exact List.not_mem_nil

/-- The outcome depends on what the lines are parsed to. -/
theorem outcome_eq {news : List (List Request)} (h : lines.map parse = news.map some)
    (hfit : min num news.flatten.length ≤ capacity) :
    outcome num parse lines = .ok (queue (news.flatten.take num)) := by
  have hall : ∀ str ∈ lines, (parse str).isSome := by
    intro str hstr
    have hmem : parse str ∈ news.map some := h ▸ List.mem_map_of_mem hstr
    obtain ⟨new, -, hnew⟩ := List.mem_map.mp hmem
    rw [← hnew]
    rfl
  have hread : readable parse lines = lines := List.takeWhile_eq_self_iff.mpr hall
  have hcontents : contents parse lines = news.flatten := by
    have hmap : lines.map (fun str => (parse str).getD []) = news := by
      have := congrArg (List.map (Option.getD · [])) h
      simpa [List.map_map, Function.comp_def] using this
    rw [contents, hread, List.flatMap_def, hmap]
  rw [outcome, hcontents, if_pos (Or.inl hread), deliver,
    if_pos (by rw [List.length_take]; exact hfit)]
  rfl

theorem flatten_requests {ρ : Type} (requests : ρ → List Request) (files : List (List ρ)) :
    (files.flatMap fun file => file.map requests ++ [[]]).flatten =
    files.flatten.flatMap requests := by
  induction files with
  | nil => rfl
  | cons file files ih =>
    rw [List.flatMap_cons, List.flatten_append, ih, List.flatten_append, List.flatten_singleton,
      List.append_nil, List.flatten_cons, List.flatMap_append]
    rfl

/-- The lines of files that were written from records: every record is read back, and the empty line
    at the end of a file adds nothing. -/
theorem outcome_files {ρ : Type} {row : ρ → List Text} {requests : ρ → List Request}
    {parseRow : List Text → Option (List Request)} {files : List (List ρ)}
    (hclean : ∀ file ∈ files, ∀ r ∈ file, Clean (row r))
    (hparse : ∀ file ∈ files, ∀ r ∈ file, parseRow (row r) = some (requests r))
    (hfit : min num (files.flatten.flatMap requests).length ≤ capacity) :
    outcome num (parseLine parseRow)
      ((files.map fun file => textFile (file.map row)).flatMap getlines) =
      .ok (queue ((files.flatten.flatMap requests).take num)) := by
  have hfile : ∀ file ∈ files, (getlines (textFile (file.map row))).map (parseLine parseRow) =
      (file.map requests ++ [[]]).map some := by
    intro file hmem
    rw [getlines_textFile, List.map_append, List.map_append, List.map_map, List.map_map,
      List.map_map]
    · refine congrArg₂ _ (List.map_congr_left ?_) rfl
      intro r hr
      have hrow := hclean file hmem r hr
      simp only [Function.comp_apply, parseLine, if_neg (csv_ne_nil hrow), words_csv hrow,
        hparse file hmem r hr]
    · intro x hx
      obtain ⟨r, hr, rfl⟩ := List.mem_map.mp hx
      exact hclean file hmem r hr
  have hall : ((files.map fun file => textFile (file.map row)).flatMap getlines).map
      (parseLine parseRow) =
      (files.flatMap fun file => file.map requests ++ [[]]).map some := by
    rw [List.flatMap_map, List.map_flatMap, List.map_flatMap]
    exact List.flatMap_congr hfile
  rw [outcome_eq hall (by rwa [flatten_requests]), flatten_requests]

/-! ### Numbers that were written in decimal -/

def digitChar (d : ℕ) : Char := Char.ofNat (48 + d)

theorem toNat_digitChar {d : ℕ} (h : d < 10) : (digitChar d).toNat = 48 + d := by
  have hall : ∀ d : Fin 10, (digitChar d).toNat = 48 + d := by decide
  exact hall ⟨d, h⟩

def decimal (n : ℕ) : Text := if n = 0 then ['0'] else (Nat.digits 10 n).reverse.map digitChar

theorem value_concat (ds : Text) (c : Char) :
    value (ds ++ [c]) = 10 * value ds + (c.toNat - 48) := by
  rw [value, List.foldl_append]
  rfl

theorem value_digits {ds : List ℕ} (h : ∀ d ∈ ds, d < 10) :
    value (ds.reverse.map digitChar) = Nat.ofDigits 10 ds := by
  induction ds with
  | nil => rfl
  | cons d ds ih =>
    have hd := toNat_digitChar (h d List.mem_cons_self)
    rw [List.reverse_cons, List.map_append, List.map_singleton, value_concat,
      ih fun x hx => h x (List.mem_cons_of_mem _ hx), hd, Nat.ofDigits_cons]
    omega

theorem value_decimal (n : ℕ) : value (decimal n) = n := by
  rw [decimal]
  split
  · next h =>
    rw [h]
    rfl
  · rw [value_digits fun d hd => Nat.digits_lt_base (by norm_num) hd, Nat.ofDigits_digits]

theorem isdigit_decimal {n : ℕ} {c : Char} (h : c ∈ decimal n) : isdigit c := by
  rw [decimal] at h
  split at h
  · rw [List.mem_singleton.mp h]
    decide
  · obtain ⟨d, hd, rfl⟩ := List.mem_map.mp h
    have hlt := Nat.digits_lt_base (b := 10) (by norm_num) (List.mem_reverse.mp hd)
    rw [isdigit, toNat_digitChar hlt, Bool.and_eq_true, decide_eq_true_iff, decide_eq_true_iff]
    omega

/-- Digits are neither blanks nor signs. -/
theorem strtol_digits {s : Text} (hs : ∀ c ∈ s, isdigit c) :
    strtol s = min (2 ^ 63 - 1) (value s : ℤ) := by
  have htake : s.takeWhile isdigit = s := List.takeWhile_eq_self_iff.mpr hs
  cases s with
  | nil => rfl
  | cons c s =>
    have hc := hs c List.mem_cons_self
    rw [isdigit, Bool.and_eq_true, decide_eq_true_iff, decide_eq_true_iff] at hc
    have hspace : (c :: s).dropWhile isspace = c :: s := by
      rw [List.dropWhile_cons_of_neg]
      rw [isspace, Bool.or_eq_true, Bool.and_eq_true, decide_eq_true_iff, decide_eq_true_iff,
        decide_eq_true_iff]
      omega
    rw [strtol, hspace]
    split
    · next h =>
      cases h
      exact absurd hc (by decide)
    · next h =>
      cases h
      exact absurd hc (by decide)
    · rw [htake]

theorem strtol_decimal {n : ℕ} (h : n < 2 ^ 63) : strtol (decimal n) = n := by
  rw [strtol_digits fun _ => isdigit_decimal, value_decimal]
  omega

theorem notMem_decimal {n : ℕ} {c : Char} (hc : isdigit c = false) : c ∉ decimal n := by
  intro h
  rw [isdigit_decimal h] at hc
  cases hc

/-! ### MSR records -/

/-- A request of an MSR trace, with the fields that the loader does not look at. -/
structure MsrRecord where
  time : Text
  host : Text
  disk : Text
  write : Bool
  offset : ℕ
  size : ℕ
  latency : Text

namespace MsrRecord

def row (r : MsrRecord) : List Text :=
  [r.time, r.host, r.disk, (if r.write then "Write" else "Read").toList, decimal r.offset,
    decimal r.size, r.latency]

/-- The requests for the blocks of 4096 bytes that it touches. -/
def requests (r : MsrRecord) : List Request :=
  (List.range' (r.offset / 4096) ((r.offset + r.size + 4095) / 4096 - r.offset / 4096)).map
    fun block => ⟨.READ, block⟩

/-- Its blocks have numbers below the greatest `int`, and the other fields have no comma or
    newline. -/
structure Proper (r : MsrRecord) : Prop where
  fits : r.offset + r.size ≤ 4096 * (2 ^ 31 - 1)
  clean : ∀ w ∈ [r.time, r.host, r.disk, r.latency], ',' ∉ w ∧ '\n' ∉ w

theorem Proper.clean_row {r : MsrRecord} (h : r.Proper) : Clean r.row := by
  have hfield : ∀ w ∈ r.row, ',' ∉ w ∧ '\n' ∉ w := by
    intro w hw
    simp only [row, List.mem_cons, List.not_mem_nil, or_false] at hw
    have hclean := h.clean w
    simp only [List.mem_cons, List.not_mem_nil, or_false] at hclean
    rcases hw with hw | hw | hw | hw | hw | hw | hw
    · exact hclean (Or.inl hw)
    · exact hclean (Or.inr (Or.inl hw))
    · exact hclean (Or.inr (Or.inr (Or.inl hw)))
    · rw [hw]
      cases r.write <;> decide
    · rw [hw]
      exact ⟨notMem_decimal (by decide), notMem_decimal (by decide)⟩
    · rw [hw]
      exact ⟨notMem_decimal (by decide), notMem_decimal (by decide)⟩
    · exact hclean (Or.inr (Or.inr (Or.inr hw)))
  exact ⟨by simp [row], fun w hw => (hfield w hw).1, fun w hw => (hfield w hw).2⟩

theorem Proper.msrBlocks_row {r : MsrRecord} (h : r.Proper) :
    msrBlocks r.row = (((r.offset / 4096 : ℕ) : ℤ),
      (((r.offset + r.size + 4095) / 4096 : ℕ) : ℤ) - 1) := by
  have hfits := h.fits
  have hoffset : strtol (r.row.getD 4 []) = r.offset := strtol_decimal (by omega)
  have hsize : strtol (r.row.getD 5 []) = r.size := strtol_decimal (by omega)
  rw [msrBlocks, hoffset, hsize, blockRange, toLong_eq (by omega) (by omega),
    toInt_eq (by omega) (by omega), toInt_eq (by omega) (by omega)]
  refine Prod.ext ?_ ?_
  · rfl
  · dsimp only
    omega

theorem Proper.msrParse_row {r : MsrRecord} (h : r.Proper) : msrParse r.row = some r.requests := by
  have hop : isRequest (r.row.getD 3 []) := by
    rw [isRequest]
    cases hw : r.write <;> simp [row, hw]
  have hfits := h.fits
  rw [msrParse, if_neg (by simp [row]), if_pos hop, h.msrBlocks_row, requests, blocks,
    Option.some_inj, List.range'_eq_map_range, List.map_map]
  have hlen :
      ((((r.offset + r.size + 4095) / 4096 : ℕ) : ℤ) - 1 + 1 - ((r.offset / 4096 : ℕ) : ℤ)).toNat =
      (r.offset + r.size + 4095) / 4096 - r.offset / 4096 := by omega
  rw [hlen]
  refine List.map_congr_left ?_
  intro i hi
  rw [List.mem_range] at hi
  rw [Function.comp_apply, Request.mk.injEq]
  exact ⟨rfl, by omega⟩

end MsrRecord

/-- Reading back an MSR trace: the loader gives the blocks that the records touch, in their order
    and up to the limit, if the buffer holds them. -/
theorem msr_read_back {records : List MsrRecord} (h : ∀ r ∈ records, r.Proper)
    (hfit : min num (records.flatMap MsrRecord.requests).length ≤ capacity) :
    loadMSR num (textFile (records.map MsrRecord.row)) =
      .ok (queue ((records.flatMap MsrRecord.requests).take num)) := by
  have hclean : ∀ row ∈ records.map MsrRecord.row, Clean row := by
    intro row hrow
    obtain ⟨r, hr, rfl⟩ := List.mem_map.mp hrow
    exact (h r hr).clean_row
  have hlast : ∀ str ∈ getlines (textFile (records.map MsrRecord.row)), (msrBlocks (words str)).2 <
      2 ^ 31 - 1 := by
    intro str hstr
    rw [getlines_textFile hclean, List.map_map, List.mem_append] at hstr
    rcases hstr with hstr | hstr
    · obtain ⟨r, hr, rfl⟩ := List.mem_map.mp hstr
      have hfits := (h r hr).fits
      rw [Function.comp_apply, words_csv (h r hr).clean_row, (h r hr).msrBlocks_row]
      dsimp only
      omega
    · rw [List.mem_singleton.mp hstr]
      decide
  have hout : outcome num (parseLine msrParse)
      (([records].map fun file => textFile (file.map MsrRecord.row)).flatMap getlines) =
        .ok (queue (([records].flatten.flatMap MsrRecord.requests).take num)) := by
    refine outcome_files ?_ ?_ (by rwa [List.flatten_singleton])
    · rintro file hfile r hr
      rw [List.mem_singleton.mp hfile] at hr
      exact (h r hr).clean_row
    · rintro file hfile r hr
      rw [List.mem_singleton.mp hfile] at hr
      exact (h r hr).msrParse_row
  rw [List.map_singleton, List.flatMap_singleton, List.flatten_singleton] at hout
  rw [loadMSR_eq hlast, hout]

/-- A read of one block and a write that ends in the next one. -/
def twoRecords : List MsrRecord :=
  [⟨['1'], ['h'], ['0'], false, 4096, 512, ['9']⟩, ⟨['2'], ['h'], ['0'], true, 8000, 300, ['9']⟩]

/-- With a limit beyond what the buffer holds. -/
theorem msr_read_back_two : loadMSR 57600000000 (textFile (twoRecords.map MsrRecord.row)) =
    .ok (queue [⟨.READ, 1⟩, ⟨.READ, 1⟩, ⟨.READ, 2⟩]) := by
  refine msr_read_back ?_ ((Nat.min_le_right _ _).trans (by decide))
  intro r hr
  rcases List.mem_cons.mp hr with rfl | hr
  · exact ⟨by decide, by decide⟩
  · rw [List.mem_singleton.mp hr]
    exact ⟨by decide, by decide⟩

-- behind 2^44 bytes a block has the key of the first one
example : (loadMSR 1 "1,h,0,Read,17592186044416,512,9\n".toList).toOption =
    (loadMSR 1 "1,h,0,Read,0,512,9\n".toList).toOption := by
  decide +kernel

/-! ### Twitter records -/

/-- A request of a Twitter trace. -/
structure TwitterRecord where
  time : Text
  key : Text
  keySize : Text
  valueSize : Text
  client : Text
  op : Text
  ttl : Text

namespace TwitterRecord

def row (r : TwitterRecord) : List Text :=
  [r.time, r.key, r.keySize, r.valueSize, r.client, r.op, r.ttl]

/-- A record with an operation that the loader does not know is passed over. -/
def requests (r : TwitterRecord) : List Request :=
  match operation r.op with
  | some opt => [⟨opt, string_hash r.key⟩]
  | none => []

theorem twitterParse_row (r : TwitterRecord) : twitterParse r.row = some r.requests := by
  rw [twitterParse, if_neg (by simp [row]), requests]
  have hop : r.row.getD 5 [] = r.op := rfl
  rw [hop]
  cases operation r.op <;> rfl

end TwitterRecord

/-- Reading back a Twitter trace of several files: the loader gives the requests of the records that
    have an operation it knows, with the hash of the key, in the order of the files and up to the
    limit, if the buffer holds them. -/
theorem twitter_read_back {files : List (List TwitterRecord)}
    (h : ∀ file ∈ files, ∀ r ∈ file, Clean r.row)
    (hfit : min num (files.flatten.flatMap TwitterRecord.requests).length ≤ capacity) :
    loadTwitter num (files.map fun file => textFile (file.map TwitterRecord.row)) =
      .ok (queue ((files.flatten.flatMap TwitterRecord.requests).take num)) := by
  rw [loadTwitter_eq]
  exact outcome_files h (fun _ _ r _ => r.twitterParse_row) hfit

/-- Two files; the second operation is not known. -/
def twoFiles : List (List TwitterRecord) :=
  [[⟨['1'], ['k'], ['1'], ['1'], ['c'], "get".toList, ['0']⟩],
    [⟨['2'], ['k'], ['1'], ['1'], ['c'], "quit".toList, ['0']⟩,
      ⟨['3'], ['a'], ['1'], ['1'], ['c'], "set".toList, ['0']⟩]]

theorem twitter_read_back_two :
    loadTwitter 57600000000 (twoFiles.map fun file => textFile (file.map TwitterRecord.row)) =
    .ok (queue [⟨.get, 60⟩, ⟨.set, 50⟩]) := by
  have hclean : ∀ file ∈ twoFiles, ∀ r ∈ file,
      2 ≤ r.row.length ∧ (∀ w ∈ r.row, ',' ∉ w) ∧ ∀ w ∈ r.row, '\n' ∉ w := by decide
  refine twitter_read_back ?_ ((Nat.min_le_right _ _).trans (by decide))
  intro file hfile r hr
  obtain ⟨htwo, hcomma, hnewline⟩ := hclean file hfile r hr
  exact ⟨htwo, hcomma, hnewline⟩

end FrozenHot.TraceLoader
