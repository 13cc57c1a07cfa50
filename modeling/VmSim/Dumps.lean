import VmSim.Library.BinaryOrder
import VmSim.TableDump
import VmSim.MemoryUnit

/-!
The other dumps of util/app_util.c: `print_MM`, `print_registers` and `print_HAT`. Each of
them prints a line for each cell of an array. `print_MM` counts its bytes by the number of
the pages, so it shows as many bytes of the memory as there are frames, whatever their size.
-/

namespace VmSim.Dumps
open BinaryOrder MemoryUnit PageTable

def printCells (line : Nat → α → String) (cells : List α) : Nat → Nat → Outcome (List String)
  | 0, _ => .ok []
  | count + 1, i => do
      let cell ← load cells i
      let rest ← printCells line cells count (i + 1)
      pure (line i cell :: rest)

def hexText (n : Nat) : String := String.ofList (Nat.toDigits 16 n)

def printByteBinary (byte : BYTE) : String :=
  String.ofList ((bits byte).map fun bit => if bit then '1' else '0')

def printByteHexa (byte : BYTE) : String := "0x" ++ hexText byte.toNat ++ (if byte = 0 then " " else "")

def printByteInt (byte : BYTE) : String := toString byte.toNat

def printByteChar (byte : BYTE) : String :=
  if byte = 0 then "-" else String.singleton (Char.ofNat byte.toNat)

def byteLine (byte : BYTE) : String :=
  printByteBinary byte ++ ("   " ++ printByteHexa byte ++ "   " ++ printByteChar byte ++ "      " ++
    printByteInt byte ++ "\n")

def memoryNote : String :=
  "\nMain Memory\n-----------\n\nDATA:\n\nBinary     Hex    Char   Integer\n" ++
    "--------   ----   ----   -------\n"

def memoryEnd (npages pageSize : Nat) : String :=
  "\nNUM OF PAGES: " ++ toString npages ++ "\n\nPAGE_SIZE: " ++ toString pageSize ++ "\n\n"

def printMm (mm : Mm) : Outcome (List String) := do
  let lines ← printCells (fun _ => byteLine) mm.data mm.npages 0
  pure (memoryNote :: lines ++ [memoryEnd mm.npages mm.pageSize])

def registerLine (i : Nat) (entry : IptEntry) : String :=
  "[Entry " ++ toString i ++ "] " ++ ("0x" ++ hexText entry.pageData.pageAge.toNat ++ "\n")

def printRegisters (ipt : Ipt) : Outcome (List String) := printCells registerLine ipt.entries ipt.size 0

def paddedText (i : Nat) : String :=
  String.ofList (List.replicate (3 - (toString i).length) ' ') ++ toString i

def hatLine (i : Nat) (anchor : Option Nat) : String := paddedText i ++ "|" ++ (linkText anchor ++ "\n")

def printHat (ipt : Ipt) : Outcome (List String) := do
  let lines ← printCells hatLine ipt.hat ipt.size 0
  pure ("\nHAT Dump:\n--------\n\nidx|ipt_idx\n--- -------\n" :: lines)

/-! Texts that tell what they are of. -/

theorem decimal_sharp {m n : Nat} (same : toString m = toString n) : m = n := by
  have digits : Nat.toDigits 10 m = Nat.toDigits 10 n := by
    rw [Nat.toString_eq_ofList_toDigits, Nat.toString_eq_ofList_toDigits] at same
    exact String.ofList_injective same
  have value := congrArg (fun text => Nat.ofDigitChars 10 text 0) digits
  simpa only [Nat.ofDigitChars_ten_toDigits] using value

theorem digits_sharp {m n : Nat} (same : Nat.toDigits 16 m = Nat.toDigits 16 n) : m = n := by
  have figure : ∀ a < 16, ∀ b < 16, Nat.digitChar a = Nat.digitChar b → a = b := by decide
  induction m using Nat.strong_induction_on generalizing n with
  | _ m ih =>
      have last : ∀ k, Nat.toDigits 16 k =
          (if k < 16 then [] else Nat.toDigits 16 (k / 16)) ++ [Nat.digitChar (k % 16)] := by
        intro k
        rw [Nat.toDigits_eq_if (by decide)]
        split
        · rename_i small
          rw [Nat.mod_eq_of_lt small]
          rfl
        · rfl
      rw [last m, last n] at same
      obtain ⟨front, back⟩ := List.append_inj' same rfl
      have units := figure _ (Nat.mod_lt m (by decide)) _ (Nat.mod_lt n (by decide)) (List.cons.inj back).1
      split at front
      · split at front
        · omega
        · exact absurd front.symm Nat.toDigits_ne_nil
      · split at front
        · exact absurd front Nat.toDigits_ne_nil
        · have tens := ih (m / 16) (by omega) front
          omega

theorem hex_sharp {m n : Nat} (same : hexText m = hexText n) : m = n :=
  digits_sharp (String.ofList_injective same)

theorem link_sharp {a b : Option Nat} (same : linkText a = linkText b) : a = b := by
  have never : ∀ n, linkText (some n) ≠ "-1" := by
    intro n equal
    have digits : Nat.toDigits 10 n = ['-', '1'] := by
      rw [linkText, Nat.toString_eq_ofList_toDigits] at equal
      exact String.ofList_injective equal
    have digit := Nat.isDigit_of_mem_toDigits (b := 10) (n := n) (by decide) (by decide)
      (show '-' ∈ Nat.toDigits 10 n by rw [digits]; simp)
    exact absurd digit (by decide)
  cases a with
  | none =>
      cases b with
      | none => rfl
      | some n => exact absurd same.symm (never n)
  | some m =>
      cases b with
      | none => exact absurd same (never m)
      | some n => exact congrArg some (decimal_sharp same)

theorem binary_sharp {a b : BYTE} {rest rest' : String}
    (same : printByteBinary a ++ rest = printByteBinary b ++ rest') : a = b := by
  have lists := congrArg String.toList same
  simp only [printByteBinary, String.toList_append, String.toList_ofList] at lists
  have front := (List.append_inj lists (by simp [bits])).1
  have figure : Function.Injective fun bit : Bool => if bit then '1' else '0' := by decide
  have each : bits a = bits b := List.map_injective_iff.mpr figure front
  exact BitVec.eq_of_getMsbD_eq fun i bound => congrFun (List.ofFn_inj.mp each) ⟨i, bound⟩

theorem append_sharp {front back back' : String} (same : front ++ back = front ++ back') : back = back' := by
  have lists := congrArg String.toList same
  simp only [String.toList_append] at lists
  exact String.toList_inj.mp (List.append_cancel_left lists)

theorem cut_sharp {front front' back : String} (same : front ++ back = front' ++ back) : front = front' := by
  have lists := congrArg String.toList same
  simp only [String.toList_append] at lists
  exact String.toList_inj.mp (List.append_cancel_right lists)

theorem byte_line_sharp {a b : BYTE} : byteLine a = byteLine b ↔ a = b :=
  ⟨binary_sharp, congrArg byteLine⟩

theorem register_line_sharp {i : Nat} {a b : IptEntry} :
    registerLine i a = registerLine i b ↔ a.pageData.pageAge = b.pageData.pageAge := by
  constructor
  · intro same
    exact BitVec.eq_of_toNat_eq (hex_sharp (append_sharp (cut_sharp (append_sharp same))))
  · intro same
    rw [registerLine, registerLine, same]

theorem hat_line_sharp {i : Nat} {a b : Option Nat} : hatLine i a = hatLine i b ↔ a = b :=
  ⟨fun same => link_sharp (cut_sharp (append_sharp same)), congrArg (hatLine i)⟩

theorem memory_end_sharp {npages pageSize pageSize' : Nat}
    (same : memoryEnd npages pageSize = memoryEnd npages pageSize') : pageSize = pageSize' :=
  decimal_sharp (append_sharp (cut_sharp same))

/-! The lines of an array. -/

section Cells
variable {line : Nat → α → String} {cells cells' : List α}

theorem print_cells_from {count i : Nat} (enough : i + count ≤ cells.length) :
    printCells line cells count i = .ok (((cells.drop i).take count).mapIdx fun k => line (i + k)) := by
  induction count generalizing i with
  | zero => rfl
  | succ count ih =>
      have here : load cells i = .ok cells[i] := load_of_get (List.getElem?_eq_getElem (by omega))
      rw [printCells, here, ih (by omega), List.drop_eq_getElem_cons (by omega : i < cells.length),
        List.take_succ_cons, List.mapIdx_cons]
      simp only [Nat.add_right_comm i 1, Nat.add_assoc, Nat.add_zero]
      rfl

theorem print_cells {count : Nat} (enough : count ≤ cells.length) :
    printCells line cells count 0 = .ok ((cells.take count).mapIdx line) := by
  rw [print_cells_from (by omega)]
  simp

theorem lines_alike {key : α → β} (sharp : ∀ i a b, line i a = line i b ↔ key a = key b) :
    cells.mapIdx line = cells'.mapIdx line ↔ cells.map key = cells'.map key := by
  have each : ∀ (i : Nat) (a b : Option α), a.map (line i) = b.map (line i) ↔ a.map key = b.map key := by
    intro i a b
    cases a with
    | none => cases b <;> simp
    | some a =>
        cases b with
        | none => simp
        | some b => simpa using sharp i a b
  constructor
  · intro same
    refine List.ext_getElem? fun i => ?_
    have here := congrArg (fun lines => lines[i]?) same
    simp only [List.getElem?_mapIdx] at here
    simpa only [List.getElem?_map] using (each i _ _).mp here
  · intro same
    refine List.ext_getElem? fun i => ?_
    have here := congrArg (fun keys => keys[i]?) same
    simp only [List.getElem?_map] at here
    simpa only [List.getElem?_mapIdx] using (each i _ _).mpr here

end Cells

/-! The memory. -/

structure Shaped (npages pageSize : Nat) (mm : Mm) : Prop where
  frames : mm.npages = npages
  width : mm.pageSize = pageSize
  sized : mm.data.length = npages * pageSize

section Memories
variable {npages pageSize npages' pageSize' : Nat} {mm mm' : Mm}

theorem print_mm_lines (shaped : Shaped npages pageSize mm) (wide : 0 < pageSize) : printMm mm =
    .ok (memoryNote :: (mm.data.take npages).mapIdx (fun _ => byteLine) ++ [memoryEnd npages pageSize]) := by
  have enough : npages ≤ mm.data.length := by
    rw [shaped.sized]
    exact Nat.le_mul_of_pos_right _ wide
  rw [printMm, shaped.frames, shaped.width, print_cells enough]
  rfl

theorem print_mm_alike (shaped : Shaped npages pageSize mm) (wide : 0 < pageSize)
    (shaped' : Shaped npages' pageSize' mm') (wide' : 0 < pageSize') : printMm mm = printMm mm' ↔
      npages = npages' ∧ pageSize = pageSize' ∧ mm.data.take npages = mm'.data.take npages' := by
  have bytes : (mm.data.take npages).mapIdx (fun _ => byteLine) =
      (mm'.data.take npages').mapIdx (fun _ => byteLine) ↔ mm.data.take npages = mm'.data.take npages' := by
    have alike := @lines_alike BYTE (fun _ => byteLine) (mm.data.take npages) (mm'.data.take npages') BYTE id
      fun _ _ _ => byte_line_sharp
    simpa only [List.map_id] using alike
  rw [print_mm_lines shaped wide, print_mm_lines shaped' wide']
  constructor
  · intro same
    have lists := (List.cons.inj (Except.ok.inj same)).2
    obtain ⟨lines, ends⟩ := List.append_inj' lists rfl
    have taken := bytes.mp lines
    have count : npages = npages' := by
      have lengths := congrArg List.length taken
      rw [List.length_take, List.length_take, shaped.sized, shaped'.sized] at lengths
      have few := Nat.le_mul_of_pos_right npages wide
      have few' := Nat.le_mul_of_pos_right npages' wide'
      omega
    subst count
    exact ⟨rfl, memory_end_sharp (List.cons.inj ends).1, taken⟩
  · rintro ⟨rfl, rfl, taken⟩
    rw [bytes.mpr taken]

end Memories

/-- The dump tells all memories of a shape apart exactly if there is nothing to tell or a page
is one byte: of longer pages it leaves bytes out. -/
theorem memory_dump_whole_iff {npages pageSize : Nat} (wide : 0 < pageSize) :
    (∀ mm mm', Shaped npages pageSize mm → Shaped npages pageSize mm' → printMm mm = printMm mm' → mm = mm') ↔
      npages = 0 ∨ pageSize = 1 := by
  constructor
  · intro tells
    by_contra longer
    obtain ⟨some, long⟩ := not_or.mp longer
    have room : npages * 2 ≤ npages * pageSize := Nat.mul_le_mul_left _ (by omega)
    let filled (byte : BYTE) : Mm :=
      ⟨List.replicate npages 0 ++ List.replicate (npages * pageSize - npages) byte, npages, pageSize⟩
    have shaped : ∀ byte, Shaped npages pageSize (filled byte) := by
      refine fun byte => ⟨rfl, rfl, ?_⟩
      simp only [filled, List.length_append, List.length_replicate]
      omega
    have front : ∀ byte, (filled byte).data.take npages = List.replicate npages 0 :=
      fun byte => List.take_left' List.length_replicate
    -- The bytes behind the first `npages` are not printed.
    have printed := (print_mm_alike (shaped 0) wide (shaped 1) wide).mpr
      ⟨rfl, rfl, (front 0).trans (front 1).symm⟩
    have data := congrArg Mm.data (tells _ _ (shaped 0) (shaped 1) printed)
    have back := List.append_cancel_left data
    have value := (List.replicate_inj.mp back).2
    rcases value with none | equal
    · omega
    · exact absurd equal (by decide)
  · intro short mm mm' shaped shaped' same
    have few : npages * pageSize ≤ npages := by
      rcases short with rfl | rfl <;> simp
    obtain ⟨-, -, taken⟩ := (print_mm_alike shaped wide shaped' wide).mp same
    rw [List.take_of_length_le (shaped.sized ▸ few), List.take_of_length_le (shaped'.sized ▸ few)] at taken
    cases mm
    cases mm'
    have frames := shaped.frames.trans shaped'.frames.symm
    have width := shaped.width.trans shaped'.width.symm
    simp_all

theorem memory_dump_whole_iff_pair :
    ¬ ∀ mm mm', Shaped 1 2 mm → Shaped 1 2 mm' → printMm mm = printMm mm' → mm = mm' :=
  fun tells => absurd ((memory_dump_whole_iff (by decide)).mp tells) (by decide)

/-! The tables. -/

def ages (ipt : Ipt) : List (BitVec 32) := ipt.entries.map fun entry => entry.pageData.pageAge

theorem registers_alike {ipt ipt' : Ipt} (sized : ipt.entries.length = ipt.size)
    (sized' : ipt'.entries.length = ipt'.size) :
    printRegisters ipt = printRegisters ipt' ↔ ages ipt = ages ipt' := by
  rw [printRegisters, printRegisters, print_cells sized.ge, print_cells sized'.ge,
    List.take_of_length_le sized.le, List.take_of_length_le sized'.le, Except.ok.injEq]
  exact lines_alike fun _ _ _ => register_line_sharp

theorem hats_alike {ipt ipt' : Ipt} (sized : ipt.hat.length = ipt.size)
    (sized' : ipt'.hat.length = ipt'.size) : printHat ipt = printHat ipt' ↔ ipt.hat = ipt'.hat := by
  have alike := @lines_alike (Option Nat) hatLine ipt.hat ipt'.hat (Option Nat) id fun _ _ _ => hat_line_sharp
  rw [List.map_id, List.map_id] at alike
  rw [printHat, printHat, print_cells sized.ge, print_cells sized'.ge,
    List.take_of_length_le sized.le, List.take_of_length_le sized'.le, ← alike]
  constructor
  · intro same
    exact (List.cons.inj (Except.ok.inj same)).2
  · intro same
    rw [same]

/-- The dumps of the page table print all its ages and all its anchors. -/
theorem tables_dumped {size size' : Nat} {past past' : List (Op × Errcode)} {ipt ipt' : Ipt} (positive : 0 < size)
    (positive' : 0 < size') (run : Run (iptInit size) past ipt) (run' : Run (iptInit size') past' ipt') :
    (printRegisters ipt = printRegisters ipt' ↔ ages ipt = ages ipt') ∧
      (printHat ipt = printHat ipt' ↔ ipt.hat = ipt'.hat) := by
  obtain ⟨chain, chained⟩ := (run_traced positive run).sound.chained
  obtain ⟨chain', chained'⟩ := (run_traced positive' run').sound.chained
  exact ⟨registers_alike chained.entriesSized chained'.entriesSized,
    hats_alike chained.hatSized chained'.hatSized⟩

/-- A page has come, and both dumps tell. -/
theorem tables_dumped_added : ∃ ipt, Run (iptInit 1) [(.add ⟨3, 4, 0⟩, .ecSuccess)] ipt ∧
    printRegisters ipt ≠ printRegisters (iptInit 1) ∧ printHat ipt ≠ printHat (iptInit 1) := by
  have run : Run (iptInit 1) [(.add ⟨3, 4, 0⟩, .ecSuccess)] _ := .step .nil rfl rfl
  obtain ⟨registers, hats⟩ := tables_dumped (by decide) (by decide) run (.nil : Run (iptInit 1) [] (iptInit 1))
  exact ⟨_, run, fun same => absurd (registers.mp same) (by decide), fun same => absurd (hats.mp same) (by decide)⟩

end VmSim.Dumps
