import VmSim.Library.Formats
import VmSim.TypedRequests
import VmSim.ThreadOutcomes

/-!
The configuration that `load_app_data` reads: six calls of `fscanf`, each for one number.
What the calls return is not looked at, so a number that is not found is used all the same,
with whatever value is there; `none` stands for that.
-/

namespace VmSim.Configuration
open CommandLine Console Formats ThreadCode

/-- A format without other conversions than `%u`. -/
def directives : List BYTE → List (Directive BYTE)
  | [] => []
  | [c] => [if isSpace c then .blank c else .letter c]
  | c :: d :: format =>
      if c = 37 ∧ d = 117 then .number :: directives format
      else (if isSpace c then .blank c else .letter c) :: directives (d :: format)

def afterNumber (stream : List BYTE) : List BYTE :=
  let text := stream.dropWhile isSpace
  (if text.head? = some 45 ∨ text.head? = some 43 then text.tail else text).dropWhile isDigit

def scanNumber (stream : List BYTE) : Option (BitVec 32 × List BYTE) :=
  (scanUnsigned stream).map fun x => (x, afterNumber stream)

/-- The numbers a call of `fscanf` stores, and where it stops; `none` where it breaks off. -/
def fscanf (format : String) (stream : List BYTE) : Option (List (BitVec 32) × List BYTE) :=
  scan isSpace scanNumber (directives (ascii format)) stream

structure Config where
  nproc : BitVec 32
  pageSize : BitVec 32
  nPageMm : BitVec 32
  nPageDisk : BitVec 32
  nProcPages : BitVec 32
  shiftClock : BitVec 32
  deriving DecidableEq, Repr

def Config.numbers (config : Config) : List (BitVec 32) :=
  [config.nproc, config.pageSize, config.nPageMm, config.nPageDisk, config.nProcPages, config.shiftClock]

/-- The calls of `load_app_data`, in the order of `Config`. -/
def formats : List String :=
  [ "MaxNumOfProcesses = %u\n", "PageSize = %u\n", "NumOfPagesInMM = %u\n",
    "NumOfPagesInDisk = %u\n", "NumOfProcessPages = %u\n", "ShiftClock = %u" ]

def readNumbers : List String → List BYTE → Option (List (BitVec 32) × List BYTE)
  | [], file => some ([], file)
  | format :: later, file =>
      (fscanf format file).bind fun read =>
        (readNumbers later read.2).map fun others => (read.1 ++ others.1, others.2)

def readConfig (file : List BYTE) : Option Config :=
  match readNumbers formats file with
  | some ([nproc, pageSize, nPageMm, nPageDisk, nProcPages, shiftClock], _) =>
      some ⟨nproc, pageSize, nPageMm, nPageDisk, nProcPages, shiftClock⟩
  | _ => none

def memoryOf (config : Config) : MemoryUnit.Mm := MemoryUnit.mmInit config.nPageMm.toNat config.pageSize.toNat

def diskOf (config : Config) : DiskBlocks.Disk :=
  DiskBlocks.diskInit config.nPageDisk.toNat config.pageSize.toNat config.nProcPages.toNat

/-- What `load_app_data` starts, where the six numbers are read and `int` holds the sizes. -/
def loadAppData (file : List BYTE) : Option Threads :=
  (readConfig file).map fun config =>
    boot config.nproc.toNat (memoryOf config) (diskOf config) config.shiftClock.toNat PageReplacement.prmStatics

/-! Numbers in a text. -/

def stored (negative : Bool) (n : Nat) : BitVec 32 :=
  if 2 ^ 64 ≤ n then BitVec.allOnes 32 else if negative then -BitVec.ofNat 32 n else BitVec.ofNat 32 n

structure Figures (text : List BYTE) : Prop where
  filled : text ≠ []
  digits : ∀ c ∈ text, isDigit c = true

inductive Numeral : List BYTE → BitVec 32 → Prop where
  | plain {text} : Figures text → Numeral text (stored false (decimal text))
  | plus {text} : Figures text → Numeral (43 :: text) (stored false (decimal text))
  | minus {text} : Figures text → Numeral (45 :: text) (stored true (decimal text))

def scanFigures (negative : Bool) (text : List BYTE) : Option (BitVec 32 × List BYTE) :=
  if text.takeWhile isDigit = [] then none
  else some (stored negative (decimal (text.takeWhile isDigit)), text.dropWhile isDigit)

theorem scan_figures_iff {negative : Bool} {text rest : List BYTE} {x : BitVec 32} :
    scanFigures negative text = some (x, rest) ↔
      ∃ figures, text = figures ++ rest ∧ Figures figures ∧ x = stored negative (decimal figures) ∧ Ends isDigit rest := by
  constructor
  · intro scanned
    simp only [scanFigures] at scanned
    split at scanned
    · cases scanned
    · rename_i filled
      obtain ⟨same, left⟩ := Prod.mk.inj (Option.some.inj scanned)
      refine ⟨text.takeWhile isDigit, ?_, ⟨filled, fun c => List.mem_takeWhile_imp⟩, same.symm, ?_⟩
      · rw [← left, List.takeWhile_append_dropWhile]
      · obtain ⟨-, -, -, ends⟩ := gap_splits isDigit text
        rw [← left]
        exact ends
  · rintro ⟨figures, rfl, valid, rfl, ends⟩
    have taken : (figures ++ rest).takeWhile isDigit = figures := by
      have all := List.takeWhile_append_dropWhile (p := isDigit) (l := figures ++ rest)
      rw [drop_gap valid.digits ends] at all
      exact List.append_cancel_right all
    rw [scanFigures, taken, if_neg valid.filled, drop_gap valid.digits ends]

theorem ends_cons {kind : BYTE → Bool} {c : BYTE} {text : List BYTE} (other : kind c = false) : Ends kind (c :: text) := by
  intro d head
  cases head
  exact other

theorem ends_drop {text : List BYTE} (ends : Ends isSpace text) : text.dropWhile isSpace = text :=
  drop_gap (show ∀ c ∈ ([] : List BYTE), isSpace c = true by simp) ends

def unsigned (stream : List BYTE) : List BYTE :=
  if stream.head? = some 45 ∨ stream.head? = some 43 then stream.tail else stream

theorem scan_unsigned {stream : List BYTE} (ends : Ends isSpace stream) :
    scanNumber stream = scanFigures (decide (stream.head? = some 45)) (unsigned stream) := by
  simp only [scanNumber, afterNumber, scanUnsigned, ends_drop ends, scanFigures, stored, unsigned, decide_eq_true_eq]
  generalize (if stream.head? = some 45 ∨ stream.head? = some 43 then stream.tail else stream) = text
  by_cases nothing : text.takeWhile isDigit = []
  · rw [if_pos nothing, if_pos nothing]
    rfl
  · rw [if_neg nothing, if_neg nothing]
    split
    · rfl
    · split <;> rfl

theorem figures_begin {text : List BYTE} (figures : Figures text) (rest : List BYTE) :
    (text ++ rest).head? ≠ some 45 ∧ (text ++ rest).head? ≠ some 43 := by
  have digit : ∀ c : BYTE, isDigit c = true → c ≠ 45 ∧ c ≠ 43 := by decide
  obtain ⟨c, others, rfl⟩ := List.exists_cons_of_ne_nil figures.filled
  have first := digit c (figures.digits c List.mem_cons_self)
  exact ⟨fun head => first.1 (Option.some.inj head), fun head => first.2 (Option.some.inj head)⟩

theorem scan_number_iff (stream : List BYTE) (x : BitVec 32) (rest : List BYTE) (begins : Ends isSpace stream) :
    scanNumber stream = some (x, rest) ↔
      ∃ numeral, stream = numeral ++ rest ∧ Numeral numeral x ∧ Ends isDigit rest := by
  rw [scan_unsigned begins, scan_figures_iff]
  constructor
  · rintro ⟨figures, split, valid, rfl, ends⟩
    by_cases minus : stream.head? = some 45
    · rw [unsigned, if_pos (.inl minus)] at split
      refine ⟨45 :: figures, ?_, ?_, ends⟩
      · rw [List.cons_append, ← split]
        exact (List.cons_head?_tail minus).symm
      · rw [decide_eq_true minus]
        exact .minus valid
    · rw [decide_eq_false minus]
      by_cases plus : stream.head? = some 43
      · rw [unsigned, if_pos (.inr plus)] at split
        refine ⟨43 :: figures, ?_, .plus valid, ends⟩
        rw [List.cons_append, ← split]
        exact (List.cons_head?_tail plus).symm
      · rw [unsigned, if_neg (not_or.mpr ⟨minus, plus⟩)] at split
        exact ⟨figures, split, .plain valid, ends⟩
  · rintro ⟨numeral, rfl, valid, ends⟩
    cases valid with
    | plain valid =>
        obtain ⟨minus, plus⟩ := figures_begin valid rest
        exact ⟨numeral, if_neg (not_or.mpr ⟨minus, plus⟩), valid, by rw [decide_eq_false minus], ends⟩
    | @plus figures valid => exact ⟨figures, rfl, valid, rfl, ends⟩
    | @minus figures valid => exact ⟨figures, rfl, valid, rfl, ends⟩

theorem numeral_solid (numeral : List BYTE) (x : BitVec 32) (valid : Numeral numeral x) :
    numeral ≠ [] ∧ Ends isSpace numeral := by
  have digit : ∀ c : BYTE, isDigit c = true → isSpace c = false := by decide
  cases valid with
  | plain figures =>
      obtain ⟨c, others, rfl⟩ := List.exists_cons_of_ne_nil figures.filled
      exact ⟨figures.filled, ends_cons (digit c (figures.digits c List.mem_cons_self))⟩
  | plus figures => exact ⟨by simp, ends_cons (by decide)⟩
  | minus figures => exact ⟨by simp, ends_cons (by decide)⟩

theorem digits_numeral (x : BitVec 32) : Numeral (digits x.toNat) x := by
  have bound := x.isLt
  have same : stored false (decimal (digits x.toNat)) = x := by
    rw [decimal_digits, stored, if_neg (by omega), if_neg Bool.false_ne_true, BitVec.ofNat_toNat, BitVec.setWidth_eq]
  have figures : Figures (digits x.toNat) := ⟨digits_filled _, fun c => digits_digit⟩
  have numeral := Numeral.plain figures
  rwa [same] at numeral

/-! The file. -/

def configFormat : List (Directive BYTE) := formats.flatMap fun format => directives (ascii format)

theorem read_numbers_scan (later : List String) (file : List BYTE) : readNumbers later file =
    scan isSpace scanNumber (later.flatMap fun format => directives (ascii format)) file := by
  induction later generalizing file with
  | nil => rfl
  | cons format later ih =>
      rw [readNumbers, List.flatMap_cons, scan_append, fscanf]
      congr 1
      funext read
      rw [ih]

theorem read_config_scan {file : List BYTE} {config : Config} : readConfig file = some config ↔
    ∃ rest, scan isSpace scanNumber configFormat file = some (config.numbers, rest) := by
  rw [readConfig, read_numbers_scan]
  constructor
  · intro read
    split at read
    · rename_i rest found
      cases read
      exact ⟨rest, found⟩
    · cases read
  · rintro ⟨rest, found⟩
    rw [configFormat] at found
    rw [found]
    rfl

/-- A file configures the program exactly if it begins with a text of the six formats. -/
theorem config_read_iff (file : List BYTE) (config : Config) : readConfig file = some config ↔
    ∃ text rest, file = text ++ rest ∧ Reads isSpace isDigit Numeral rest configFormat text config.numbers := by
  rw [read_config_scan]
  constructor
  · rintro ⟨rest, found⟩
    obtain ⟨text, split, reads⟩ := (scan_iff scan_number_iff numeral_solid).mp found
    exact ⟨text, rest, split, reads⟩
  · rintro ⟨text, rest, split, reads⟩
    exact ⟨rest, (scan_iff scan_number_iff numeral_solid).mpr ⟨text, split, reads⟩⟩

/-- The file that is written for a configuration, with the spaces and lines of the formats. -/
def configText (config : Config) : List BYTE := fill (fun x => digits x.toNat) configFormat config.numbers

theorem config_text_reads (config : Config) {later : List BYTE} (apart : Ends isDigit later) :
    Reads isSpace isDigit Numeral later configFormat (configText config) config.numbers := by
  have separate : separable isSpace isDigit configFormat = true := by decide
  have counted : numberCount configFormat = 6 := by decide
  exact fill_reads digits_numeral (fun x => numeral_solid _ x (digits_numeral x)) separate counted apart

/-- A configuration that is written down is read back. -/
theorem written_config_read (config : Config) (later : List BYTE) (apart : Ends isDigit later) :
    readConfig (configText config ++ later) = some config :=
  read_config_scan.mpr ⟨later, (scan_iff scan_number_iff numeral_solid).mpr
    ⟨configText config, rfl, config_text_reads config apart⟩⟩

theorem written_config_read_line : Ends isDigit (ascii "\n") ∧
    readConfig (configText ⟨5, 8, 4, 20, 2, 3⟩ ++ ascii "\n") = some ⟨5, 8, 4, 20, 2, 3⟩ :=
  ⟨ends_cons (by decide), written_config_read ⟨5, 8, 4, 20, 2, 3⟩ _ (ends_cons (by decide))⟩

/-! The program that is configured. -/

/-- Numbers that the program can work with: at least a frame, a page and a page for each
process, and sizes that `int` holds. -/
structure Usable (config : Config) : Prop where
  frames : 0 < config.nPageMm.toNat
  pages : 0 < config.nPageDisk.toNat
  block : 0 < config.nProcPages.toNat
  memSmall : config.nPageMm.toNat * config.pageSize.toNat < 2 ^ 31
  diskSmall : config.nPageDisk.toNat * config.pageSize.toNat < 2 ^ 31
  blockSmall : config.nPageDisk.toNat + config.nProcPages.toNat ≤ 2 ^ 31

theorem usable_configured {config : Config} (usable : Usable config) :
    Configured (memoryOf config) (diskOf config) where
  setup := PagingRuns.init_setup usable.frames usable.pages usable.memSmall usable.diskSmall
  empty := by
    have pages := usable.pages
    have block := usable.block
    have small := usable.blockSmall
    exact BlockAllocator.init_owned ⟨config.nPageDisk.toNat, pages, by omega⟩
      ⟨config.nProcPages.toNat, block, by omega⟩ config.pageSize.toNat
  small := usable.blockSmall

/-- The file for two processes of one page, with one frame between them. -/
def pairFile : List BYTE := ascii "MaxNumOfProcesses = 2\nPageSize = 1\nNumOfPagesInMM = 1
NumOfPagesInDisk = 2\nNumOfProcessPages = 1\nShiftClock = 10\n"

end VmSim.Configuration
