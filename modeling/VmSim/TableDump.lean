import VmSim.PageTableHistory

/-!
`print_MMU_table` of util/app_util.c. The dump is the list of what its calls of
`printf` print. An entry is printed if it is not valid, so the dump shows the
frames the wrong way round: a resident page as a free frame, and a free frame
with what is left of the page that was removed from it.
-/

namespace VmSim.PageTable

def boolText (b : Bool) : String := if b then "1" else "0"

/-- `%d` of a link; `none` is -1. -/
def linkText : Option Nat → String
  | none => "-1"
  | some idx => toString idx

def entryLine (pid page : Nat) (dirty referenced : Bool) (next prev : Option Nat) : String :=
  "(" ++ toString pid ++ ", " ++ toString page ++ ", " ++ boolText dirty ++ ", " ++
    boolText referenced ++ ", " ++ linkText next ++ ", " ++ linkText prev ++ ")\n"

def freeLine : String := "(free)\n"

def printIptEntry (entry : IptEntry) : String :=
  if !entry.pageData.valid then
    entryLine entry.pageData.addr.pid entry.pageData.addr.page entry.pageData.dirty
      entry.pageData.referenced entry.next entry.prev
  else freeLine

def dumpNote : String :=
  "NOTE\n----\nentries will be printed as follows: (pid, page_num, dirty_bit, " ++
    "aging_reference_bit, next, prev)\nfor free (unused) pages \"(free)\" will be printed\n"

/-- The loop of `print_MMU_table` over `count` entries from `i` on. -/
def printEntries (table : Ipt) : Nat → Nat → Outcome (List String)
  | 0, _ => .ok []
  | count + 1, i => do
      let entry ← load table.entries i
      let rest ← printEntries table count (i + 1)
      pure (printIptEntry entry :: rest)

def printMmuTable (table : Ipt) : Outcome (List String) := do
  let lines ← printEntries table table.size 0
  pure (dumpNote :: lines)

theorem print_entries_exact (table : Ipt) (front back : List IptEntry)
    (entries : table.entries = front ++ back) :
    printEntries table back.length front.length = .ok (back.map printIptEntry) := by
  induction back generalizing front with
  | nil => rfl
  | cons entry rest ih =>
      have here : load table.entries front.length = .ok entry :=
        load_of_get (by simp [entries])
      have behind := ih (front ++ [entry]) (by simp [entries])
      rw [List.length_append, List.length_singleton] at behind
      simp [printEntries, here, behind]

theorem entry_line_ne_free (pid page : Nat) (dirty referenced : Bool) (next prev : Option Nat) :
    entryLine pid page dirty referenced next prev ≠ freeLine := by
  intro same
  have comma : ',' ∈ (entryLine pid page dirty referenced next prev).toList := by
    simp [entryLine]
  rw [same] at comma
  revert comma
  decide

/-- What a dump of the resident pages shows: a line for each frame, in their order, with
the page that is translated to it, and a free frame as free. -/
structure Shows (ipt : Ipt) (lines : List String) : Prop where
  frames : lines.length = ipt.size
  resident : ∀ addr frame, iptTranslate ipt addr = .ok frame → ∃ entry,
    ipt.entries[frame]? = some entry ∧ iptIsDirty ipt addr = .ok entry.pageData.dirty ∧
    lines[frame]? = some (entryLine addr.pid addr.page entry.pageData.dirty
      entry.pageData.referenced entry.next entry.prev)
  free : ∀ frame, lines[frame]? = some freeLine ↔ frame ∈ ipt.freePages

def DumpExact (ipt : Ipt) : Prop :=
  ∃ lines, printMmuTable ipt = .ok (dumpNote :: lines) ∧ Shows ipt lines

section Dumps
variable {ipt : Ipt}

theorem dump_prints (sized : ipt.entries.length = ipt.size) :
    printMmuTable ipt = .ok (dumpNote :: ipt.entries.map printIptEntry) := by
  have printed := print_entries_exact ipt [] ipt.entries rfl
  rw [sized, List.length_nil] at printed
  simp [printMmuTable, printed]

theorem dump_inverted (sound : Sound ipt) : ∃ lines, printMmuTable ipt = .ok (dumpNote :: lines) ∧
    lines.length = ipt.size ∧
    (∀ frame ∈ ipt.freePages, ∃ entry, ipt.entries[frame]? = some entry ∧
      lines[frame]? = some (entryLine entry.pageData.addr.pid entry.pageData.addr.page
        entry.pageData.dirty entry.pageData.referenced entry.next entry.prev)) ∧
    ∀ frame < ipt.size, frame ∉ ipt.freePages → lines[frame]? = some freeLine := by
  obtain ⟨chain, chained⟩ := sound.chained
  refine ⟨_, dump_prints chained.entriesSized, by simp [chained.entriesSized], ?_, ?_⟩
  · intro frame isFree
    obtain ⟨data, found, off⟩ := (chained.free frame).mp isFree
    have entry := entry_of_data found
    exact ⟨_, entry, by simp [entry, printIptEntry, off]⟩
  · intro frame inside used
    rw [← chained.entriesSized] at inside
    have entry : ipt.entries[frame]? = some ipt.entries[frame] := List.getElem?_eq_getElem inside
    have valid : ipt.entries[frame].pageData.valid = true := by
      by_contra off
      rw [Bool.not_eq_true] at off
      exact used ((chained.free frame).mpr ⟨_, by simp [dataOf, entry], off⟩)
    simp [entry, printIptEntry, valid]

theorem dump_wrong (sound : Sound ipt) : ¬ DumpExact ipt := by
  rintro ⟨lines, printed, shows⟩
  obtain ⟨lines', printed', -, stale, used⟩ := dump_inverted sound
  rw [printed] at printed'
  cases printed'
  obtain ⟨chain, chained⟩ := sound.chained
  -- The first frame alone gives it away.
  by_cases isFree : 0 ∈ ipt.freePages
  · obtain ⟨entry, -, line⟩ := stale 0 isFree
    rw [(shows.free 0).mpr isFree] at line
    exact entry_line_ne_free _ _ _ _ _ _ (Option.some.inj line).symm
  · exact isFree ((shows.free 0).mp (used 0 chained.positive isFree))

end Dumps

theorem empty_run {past : List (Op × Errcode)} {ipt : Ipt} (run : Run (iptInit 0) past ipt) :
    ipt = iptInit 0 := by
  induction run with
  | nil => rfl
  | @step past ipt op code after run allowed ran ih =>
      subst ih
      cases op with
      | add addr => cases allowed
      | remove addr => cases ran
      | reference addr reftype => cases allowed

/-- The dump shows the resident pages exactly if there is no frame to be shown. -/
theorem dump_exact_iff {size : Nat} {past : List (Op × Errcode)} {ipt : Ipt}
    (run : Run (iptInit size) past ipt) : DumpExact ipt ↔ size = 0 := by
  constructor
  · intro dumped
    by_contra some
    exact dump_wrong (run_traced (Nat.pos_of_ne_zero some) run).sound dumped
  · rintro rfl
    rw [empty_run run]
    refine ⟨[], rfl, rfl, fun addr frame translated => ?_, fun frame => ?_⟩
    · cases translated
    · simp [iptInit]

def stalePast : List (Op × Errcode) :=
  [(.remove ⟨3, 4, 0⟩, .ecSuccess), (.add ⟨3, 4, 0⟩, .ecSuccess)]

/-- A page has come and gone, and its entry is what the dump shows. -/
theorem dump_exact_iff_stale : ∃ ipt, Run (iptInit 2) stalePast ipt ∧ (DumpExact ipt ↔ 2 = 0) := by
  have added : Run (iptInit 2) [(.add ⟨3, 4, 0⟩, .ecSuccess)] _ := .step .nil rfl rfl
  have removed : Run (iptInit 2) stalePast _ := .step added trivial rfl
  exact ⟨_, removed, dump_exact_iff removed⟩

/-- The only frame holds a page, and the dump says that it is free. -/
theorem resident_shown_free : ∃ ipt, Run (iptInit 1) [(.add ⟨3, 4, 0⟩, .ecSuccess)] ipt ∧
    iptTranslate ipt ⟨3, 4, 0⟩ = .ok 0 ∧ printMmuTable ipt = .ok [dumpNote, "(free)\n"] ∧
    ¬ DumpExact ipt := by
  have run : Run (iptInit 1) [(.add ⟨3, 4, 0⟩, .ecSuccess)] _ := .step .nil rfl rfl
  exact ⟨_, run, rfl, rfl, dump_wrong (run_traced (by decide) run).sound⟩

end VmSim.PageTable
