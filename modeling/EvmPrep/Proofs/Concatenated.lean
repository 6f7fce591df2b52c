import EvmPrep.Proofs.Appended
import EvmPrep.Proofs.Heads
set_option autoImplicit false

/-!
# The scan of two programs in a row

If the last push of a program is cut off, the scan of the program ends behind its bytes,
and what is put behind the program goes into that push first (`swallowed`).  Bytes that
go there change nothing that the scan finds: the heads stay (`heads_append_of_le`).  The
bytes behind them are scanned as if they stood alone (`cut_append_swallowed`).  With these
two facts every result of the scan falls into two parts (`scan_append`).

Zeros have nothing to find, so any number of them can be put behind a program.
-/

namespace EvmPrep

/-! ## Where a scan ends -/

theorem scanEnd_eq_foldr_heads (code : List UInt8) :
    scanEnd code = (heads code).foldr (fun h behind => 1 + pushWidth h.2 + behind) 0 := by
  rw [heads, List.foldr_map]
  rfl

theorem length_le_scanEnd (code : List UInt8) : code.length ≤ scanEnd code := by
  induction code using cutInduction sourceWidth with
  | nil => exact Nat.zero_le _
  | cons b rest ih =>
    rw [scanEnd_cons, List.length_cons]
    simp only [sourceWidth, List.length_drop] at ih
    omega

/-- A scan ends in the padding, if not before. -/
theorem scanEnd_le (code : List UInt8) : scanEnd code ≤ code.length + 32 := by
  induction code using cutInduction sourceWidth with
  | nil => exact Nat.zero_le _
  | cons b rest ih =>
    have hwidth := pushWidth_le b
    rw [scanEnd_cons, List.length_cons]
    simp only [sourceWidth, List.length_drop] at ih
    rcases Nat.le_total (pushWidth b) rest.length with h | h
    · omega
    · have hnil : scanEnd [] = 0 := rfl
      rw [List.drop_eq_nil_of_le h, hnil]
      omega

/-- The instruction that reaches to the end of the code is the one behind which the scan ends. -/
theorem scanEnd_eq_of_isStart {code : List UInt8} {s : Nat} {b : UInt8}
    (start : IsStart sourceWidth code s) (here : code[s]? = some b)
    (last : code.length ≤ s + 1 + pushWidth b) : scanEnd code = s + 1 + pushWidth b := by
  induction code using cutInduction sourceWidth generalizing s with
  | nil => exact absurd start (not_isStart_nil s)
  | cons c rest ih =>
    rw [scanEnd_cons]
    rw [List.length_cons] at last
    rcases isStart_cons.mp start with rfl | ⟨t, ht, rfl⟩
    · obtain rfl : c = b := Option.some.inj here
      have hnil : scanEnd [] = 0 := rfl
      rw [List.drop_eq_nil_of_le (by omega), hnil]
      omega
    · simp only [sourceWidth] at ih ht here last ⊢
      have hinside := ht.lt_length
      have here' : (rest.drop (pushWidth c))[t]? = some b := by
        rw [List.getElem?_drop, ← here, show t + (1 + pushWidth c) = pushWidth c + t + 1 by omega,
          List.getElem?_cons_succ]
      rw [List.length_drop] at hinside
      rw [ih ht here' (by rw [List.length_drop]; omega)]
      omega

/-! ## Bytes that a push swallows -/

/-- Bytes that the last push is short of are not looked at. -/
theorem heads_append_of_le {program more : List UInt8}
    (le : program.length + more.length ≤ scanEnd program) :
    heads (program ++ more) = heads program := by
  induction program using cutInduction sourceWidth with
  | nil =>
    have hzero : [].length + more.length ≤ 0 := le
    have hnil : more = [] := List.length_eq_zero_iff.mp (by rwa [List.length_nil, Nat.zero_add,
      Nat.le_zero] at hzero)
    rw [hnil, List.append_nil]
  | cons b rest ih =>
    rw [scanEnd_cons, List.length_cons] at le
    rw [List.cons_append, heads_cons, heads_cons]
    simp only [sourceWidth, List.length_drop] at ih
    rcases Nat.le_total (pushWidth b) rest.length with h | h
    · rw [List.drop_append_of_le_length h, ih (by omega)]
    · -- the push is not whole yet
      have hnil : scanEnd [] = 0 := rfl
      rw [List.drop_eq_nil_of_le h, hnil] at le
      rw [List.drop_eq_nil_of_le h,
        List.drop_eq_nil_of_le (by rw [List.length_append]; omega)]

theorem scanEnd_append_of_le {program more : List UInt8}
    (le : program.length + more.length ≤ scanEnd program) :
    scanEnd (program ++ more) = scanEnd program := by
  rw [scanEnd_eq_foldr_heads, heads_append_of_le le, ← scanEnd_eq_foldr_heads]

theorem disarm_append_of_le {program more : List UInt8}
    (le : program.length + more.length ≤ scanEnd program) :
    disarm (program ++ more) = disarm program ++ more := by
  have htrapped : ∀ s, IsTrapped (program ++ more) s ↔ IsTrapped program s := fun s =>
    isTrapped_iff_of_heads_eq (heads_append_of_le le)
  apply List.ext_getElem?
  intro s
  rw [getElem?_disarm]
  rcases Nat.lt_or_ge s program.length with hs | hs
  · have hs' : s < (disarm program).length := by rwa [length_disarm]
    rw [List.getElem?_append_left hs, List.getElem?_append_left hs', getElem?_disarm]
    simp only [htrapped]
  · have hfree : ¬ IsTrapped program s := fun h => absurd h.1.lt_length (Nat.not_lt_of_le hs)
    rw [if_neg (mt (htrapped s).mp hfree), List.getElem?_append_right hs,
      List.getElem?_append_right (by rw [length_disarm]; exact hs), length_disarm]

/-- How many of the bytes put behind a program go into its last push. -/
def swallowed (program more : List UInt8) : Nat :=
  min (scanEnd program - program.length) more.length

theorem length_take_swallowed (program more : List UInt8) :
    (more.take (swallowed program more)).length = swallowed program more :=
  List.length_take_of_le (Nat.min_le_right ..)

theorem add_length_take_swallowed_le (program more : List UInt8) :
    program.length + (more.take (swallowed program more)).length ≤ scanEnd program := by
  rw [length_take_swallowed]
  have hend := length_le_scanEnd program
  have hswallowed : swallowed program more ≤ scanEnd program - program.length := Nat.min_le_left ..
  omega

/-- Behind the bytes that the last push swallows, code is cut anew. -/
theorem cut_append_swallowed (program more : List UInt8) :
    cut sourceWidth 0 (program ++ more)
      = cut sourceWidth 0 (program ++ more.take (swallowed program more))
        ++ cut sourceWidth (program.length + swallowed program more)
          (more.drop (swallowed program more)) := by
  have hlength := length_take_swallowed program more
  rcases Nat.le_total (scanEnd program - program.length) more.length with h | h
  · -- the push is whole
    have hall : swallowed program more = scanEnd program - program.length := Nat.min_eq_left h
    have hwhole : scanEnd (program ++ more.take (swallowed program more))
        = (program ++ more.take (swallowed program more)).length := by
      have hend := length_le_scanEnd program
      rw [scanEnd_append_of_le (add_length_take_swallowed_le program more), List.length_append,
        hlength, hall]
      omega
    have hcut := cut_append ((scanEnd_eq_length_iff 0).mp hwhole)
      (more.drop (swallowed program more))
    rwa [List.append_assoc, List.take_append_drop, List.length_append, hlength] at hcut
  · -- there is nothing behind
    have hall : swallowed program more = more.length := Nat.min_eq_right h
    rw [hall, List.take_length, List.drop_length, cut_nil, List.append_nil]

/-! ## The two parts -/

theorem flatMap_bytes_disarmed_cut (offset : Nat) (code : List UInt8) :
    ((cut sourceWidth offset code).flatMap fun i => i.disarmed.bytes) = disarm code := by
  have hmoved := cut_add sourceWidth 0 offset code
  rw [Nat.zero_add] at hmoved
  rw [hmoved, List.flatMap_map, disarm]
  refine congrArg List.flatten (List.map_congr_left fun i _ => ?_)
  rw [bytes_disarmed, bytes_disarmed]
  rfl

theorem disarm_append (program more : List UInt8) :
    disarm (program ++ more)
      = disarm program ++ more.take (swallowed program more)
        ++ disarm (more.drop (swallowed program more)) := by
  rw [← disarm_append_of_le (add_length_take_swallowed_le program more), disarm,
    cut_append_swallowed, List.flatMap_append, flatMap_bytes_disarmed_cut,
    flatMap_bytes_disarmed_cut]

theorem heads_append (program more : List UInt8) :
    heads (program ++ more)
      = heads program ++ (heads (more.drop (swallowed program more))).map
        (shiftHead (program.length + swallowed program more)) := by
  rw [← heads_append_of_le (add_length_take_swallowed_le program more), ← map_head_cut, heads,
    cut_append_swallowed, List.map_append]
  rfl

theorem heads_append_congr {program program' : List UInt8} (same : heads program' = heads program)
    (length_eq : program'.length = program.length) (more : List UInt8) :
    heads (program' ++ more) = heads (program ++ more) := by
  have hend : scanEnd program' = scanEnd program := by
    rw [scanEnd_eq_foldr_heads, scanEnd_eq_foldr_heads, same]
  have hswallowed : swallowed program' more = swallowed program more := by
    rw [swallowed, swallowed, hend, length_eq]
  rw [heads_append, heads_append, same, hswallowed, length_eq]

theorem toList_dests_ofCode_append (program more : List UInt8) :
    (JumpTable.ofCode (program ++ more)).dests.toList
      = (JumpTable.ofCode program).dests.toList
        ++ (JumpTable.ofCode (more.drop (swallowed program more))).dests.toList.map
          fun d => d + (program.length + swallowed program more) := by
  simp only [toList_dests_ofCode_eq_heads, heads_append, List.filter_append, List.map_append,
    List.filter_map, List.map_map]
  rfl

theorem trapped_ofCode_append (program more : List UInt8) :
    (JumpTable.ofCode (program ++ more)).trapped
      = (JumpTable.ofCode program).trapped
        + (JumpTable.ofCode (more.drop (swallowed program more))).trapped := by
  rw [trapped_ofCode_eq_heads, trapped_ofCode_eq_heads, trapped_ofCode_eq_heads, heads_append,
    List.countP_append, List.countP_map]
  rfl

/-! ## Zeros -/

theorem not_mem_heads_of_ne_zero {n s : Nat} {b : UInt8} (nonzero : b ≠ 0) :
    (s, b) ∉ heads (List.replicate n 0) := by
  rw [mem_heads_iff]
  rintro ⟨-, hbyte⟩
  exact nonzero (List.eq_of_mem_replicate (List.mem_of_getElem? hbyte))

/-- There is nothing to find in zeros. -/
theorem ofCode_replicate_zero (n : Nat) : JumpTable.ofCode (List.replicate n 0) = .empty := by
  have hbyte : ∀ h ∈ heads (List.replicate n 0), h.2 = 0 := fun h hh => by
    by_contra hne
    exact not_mem_heads_of_ne_zero hne hh
  apply JumpTable.eq_of_toList_dests_eq
  · rw [toList_dests_ofCode_eq_heads, List.filter_eq_nil_iff.mpr]
    · rfl
    · intro h hh
      rw [hbyte h hh]
      decide
  · rw [trapped_ofCode_eq_heads]
    refine List.countP_eq_zero.mpr fun h hh => ?_
    rw [hbyte h hh]
    decide

theorem disarm_replicate_zero (n : Nat) : disarm (List.replicate n 0) = List.replicate n 0 := by
  apply List.ext_getElem?
  intro s
  rw [getElem?_disarm, if_neg]
  rw [isTrapped_iff_mem_heads]
  rintro ⟨b, hmem, hsynthetic⟩
  refine not_mem_heads_of_ne_zero ?_ hmem
  rintro rfl
  exact absurd hsynthetic (by decide)

/-- With zeros behind it, a program has the table that it has without, and is disarmed as before. -/
theorem scan_append_replicate_zero (program : List UInt8) (n : Nat) :
    JumpTable.ofCode (program ++ List.replicate n 0) = JumpTable.ofCode program
      ∧ disarm (program ++ List.replicate n 0) = disarm program ++ List.replicate n 0 := by
  have hbehind : (List.replicate n (0 : UInt8)).drop (swallowed program (List.replicate n 0))
      = List.replicate (n - swallowed program (List.replicate n 0)) 0 := List.drop_replicate
  have hempty := ofCode_replicate_zero (n - swallowed program (List.replicate n 0))
  constructor
  · apply JumpTable.eq_of_toList_dests_eq
    · rw [toList_dests_ofCode_append, hbehind, hempty]
      exact List.append_nil _
    · rw [trapped_ofCode_append, hbehind, hempty]
      rfl
  · rw [disarm_append, hbehind, disarm_replicate_zero, ← hbehind, List.append_assoc,
      List.take_append_drop]

theorem jumpTable_analyze (program : List UInt8) :
    (RawCode.ofProgram program).analyze.jumpTable = JumpTable.ofCode program :=
  (scan_append_replicate_zero program CodeBuffer.paddingSize).1

theorem bytes_analyze (program : List UInt8) :
    (RawCode.ofProgram program).analyze.bytes
      = disarm program ++ List.replicate CodeBuffer.paddingSize 0 :=
  (scan_append_replicate_zero program CodeBuffer.paddingSize).2

/-! ## All of it -/

/-- The scan of two programs in a row in full.  It ends behind the instruction that reaches to the
end of the program, and what that instruction is short of is taken from the bytes that are put
behind the program, as far as they go.  These bytes stay as they are, the program is disarmed and
searched as if it stood alone, and so is what comes behind them.  So any number of zeros, the
padding too, adds nothing and changes nothing. -/
theorem scan_append (program more : List UInt8) :
    let taken := min (scanEnd program - program.length) more.length
    let behind := more.drop taken
    (program.length ≤ scanEnd program ∧ (program = [] → scanEnd program = 0)
        ∧ ∀ s b, IsStart numberedWidth program s → program[s]? = some b →
          program.length ≤ s + 1 + pushNumber b → scanEnd program = s + 1 + pushNumber b)
      ∧ disarm (program ++ more) = disarm program ++ more.take taken ++ disarm behind
      ∧ (JumpTable.ofCode (program ++ more)).dests.toList
        = (JumpTable.ofCode program).dests.toList
          ++ (JumpTable.ofCode behind).dests.toList.map (fun d => d + (program.length + taken))
      ∧ (JumpTable.ofCode (program ++ more)).trapped
        = (JumpTable.ofCode program).trapped + (JumpTable.ofCode behind).trapped
      ∧ (∀ n, JumpTable.ofCode (program ++ List.replicate n 0) = JumpTable.ofCode program
        ∧ disarm (program ++ List.replicate n 0) = disarm program ++ List.replicate n 0)
      ∧ (RawCode.ofProgram program).analyze.jumpTable = JumpTable.ofCode program
      ∧ (RawCode.ofProgram program).analyze.program = disarm program := by
  intro taken behind
  simp only [numberedWidth_eq, pushNumber_eq]
  refine ⟨⟨length_le_scanEnd program, fun h => by rw [h]; rfl, fun _ _ => scanEnd_eq_of_isStart⟩,
    disarm_append program more, toList_dests_ofCode_append program more,
    trapped_ofCode_append program more, scan_append_replicate_zero program,
    jumpTable_analyze program, ?_⟩
  rw [CodeBuffer.program, bytes_analyze]
  exact List.take_left' (length_disarm program)

end EvmPrep
