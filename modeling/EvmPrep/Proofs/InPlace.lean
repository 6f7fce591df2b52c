import EvmPrep.InPlace
import EvmPrep.Proofs.Restored
set_option autoImplicit false

/-!
# Passes over one buffer

A pass in place and the pass over lists of instructions have the same result.  The
argument is the same for every pass: while the cursor stands at an instruction, the
instructions in front of it are done and those from it on are as they were, so the next
step reads what it should and puts the cursor behind that instruction
(`walk_eq_of_forall_step`).  Here this is carried out for listings, which have a result,
so none of their accesses is a misstep.
-/

namespace EvmPrep.InPlace

/-! ## Accesses -/

section Access

variable {offset programLen n : Nat} {front : List UInt8}

theorem readAt_append (here : front.length = offset) (b : UInt8) (behind : List UInt8) :
    readAt (front ++ b :: behind) offset = .ok b := by
  subst here
  rw [readAt, List.getElem?_append_right (Nat.le_refl _), Nat.sub_self, List.getElem?_cons_zero]

theorem readSlice_append {bytes : List UInt8} (here : front.length = offset)
    (width : bytes.length = n) (behind : List UInt8) :
    readSlice (front ++ (bytes ++ behind)) offset n = .ok bytes := by
  subst here
  subst width
  rw [readSlice, if_pos, List.drop_left, List.take_left]
  simp only [List.length_append]
  omega

theorem writeAt_append (here : front.length = offset) (inside : offset < programLen)
    (b c : UInt8) (behind : List UInt8) :
    writeAt programLen (front ++ b :: behind) offset c = .ok (front ++ c :: behind) := by
  subst here
  rw [writeAt, if_pos, List.set_append_right _ _ (Nat.le_refl _), Nat.sub_self,
    List.set_cons_zero]
  refine ⟨inside, ?_⟩
  simp only [List.length_append, List.length_cons]
  omega

theorem narrow_of_lt (h : n < 256) : narrow n = .ok (UInt8.ofNat n) := if_pos h

end Access

/-! ## Cursors -/

/-- A walk meets the instructions that are laid out one behind the other.  `state done rest` is the
state in which the instructions `done` are treated and `rest` are left; if each step treats its
instruction and moves the cursor over it, the walk treats all of them.  A step may move the cursor
over more than the instruction has, but then not to anything that is left. -/
theorem walk_eq_of_forall_step {σ : Type} (step : Nat → σ → Except Misstep (Nat × σ)) {stop : Nat}
    {all : List Instruction} (width : Instruction → Nat)
    (state : List Instruction → List Instruction → σ)
    (chained : Chained 0 all) (inside : ∀ i ∈ all, i.offset < stop)
    (covers : stop ≤ (all.flatMap Instruction.bytes).length)
    (moves : ∀ i ∈ all, i.immediate.length ≤ width i
      ∧ (i.offset + i.size < stop → width i = i.immediate.length))
    (advance : ∀ done i rest, all = done ++ i :: rest → step i.offset (state done (i :: rest))
      = .ok (width i, state (done ++ [i]) rest)) :
    walk step stop 0 (state [] all) = .ok (state all []) := by
  have along : ∀ (rest done : List Instruction) (offset : Nat), all = done ++ rest →
      Chained offset rest → stop ≤ offset + (rest.flatMap Instruction.bytes).length →
      walk step stop offset (state done rest) = .ok (state all []) := by
    intro rest
    induction rest with
    | nil =>
      intro done offset split _ covers
      rw [List.append_nil] at split
      rw [List.flatMap_nil, List.length_nil] at covers
      rw [walk, if_neg (by omega), split]
    | cons i rest ih =>
      intro done offset split chained covers
      obtain ⟨hoffset, hrest⟩ := chained
      subst hoffset
      have hmem : i ∈ all := by
        rw [split]
        exact List.mem_append_cons_self
      obtain ⟨hwide, hexact⟩ := moves i hmem
      have hsize : i.size = i.immediate.length + 1 := rfl
      rw [List.flatMap_cons, List.length_append, Instruction.length_bytes] at covers
      rw [walk, if_pos (inside i hmem), advance done i rest split]
      dsimp only
      have hsplit : all = done ++ [i] ++ rest := by
        rw [split, List.append_assoc, List.singleton_append]
      refine ih (done ++ [i]) _ hsplit ?_ (by omega)
      cases hrest' : rest with
      | nil => trivial
      | cons j more =>
        -- an instruction is left, and the cursor is in front of it
        have hj : j ∈ all := by
          rw [hsplit, hrest']
          exact List.mem_append_cons_self
        rw [hrest'] at hrest
        have hleft : i.offset + i.size < stop := hrest.1 ▸ inside j hj
        have hnext : i.offset + 1 + width i = i.offset + i.size := by
          have := hexact hleft
          omega
        rw [hnext]
        exact hrest
  exact along all [] 0 rfl chained (by rwa [Nat.zero_add])

/-! ## Listings -/

theorem widthAt_eq {code : List UInt8} {offset : Nat} {b : UInt8}
    (whole : offset + 1 + preparedWidth b (code.drop (offset + 1)) ≤ code.length) :
    widthAt code offset b = .ok (preparedWidth b (code.drop (offset + 1))) := by
  have hat : (code.drop (offset + 1))[1]? = code[offset + 2]? := List.getElem?_drop
  rw [widthAt, preparedWidth]
  split
  · rename_i hpushc
    rw [preparedWidth, if_pos hpushc, hat] at whole
    rw [hat]
    cases hlast : code[offset + 2]? with
    | some last =>
      rw [readAt, hlast]
      rfl
    | none =>
      -- a pooled push asks for two bytes at least, and those are there
      rw [hlast] at whole
      have hend := List.getElem?_eq_none_iff.mp hlast
      dsimp only at whole
      omega
  · rfl

/-- Where an immediate is in the buffer in full, decoding makes no misstep. -/
theorem decode_of_mem_cut {code : List UInt8} {i : Instruction} (h : i ∈ cut preparedWidth 0 code)
    (fills : i.Fills preparedWidth) : decode code i.offset = .ok i := by
  obtain ⟨-, here, himmediate⟩ := of_mem_cut h
  have hwidth : preparedWidth i.byte (code.drop (i.offset + 1)) = i.immediate.length := by
    have hfills := fills ((code.drop (i.offset + 1)).drop
      (preparedWidth i.byte (code.drop (i.offset + 1))))
    rw [himmediate, List.take_append_drop, ← himmediate] at hfills
    exact hfills
  have hinside : i.offset + 1 + i.immediate.length ≤ code.length := by
    have hlength := length_immediate_of_mem_cut h
    have hlt := (List.getElem?_eq_some_iff.mp here).1
    omega
  have hgiven : widthAt code i.offset i.byte = .ok i.immediate.length := by
    rw [widthAt_eq (by rw [hwidth]; exact hinside), hwidth]
  have hslice : readSlice code (i.offset + 1) i.immediate.length = .ok i.immediate := by
    rw [readSlice, if_pos hinside, ← hwidth, ← himmediate]
  have hread : readAt code i.offset = .ok i.byte := by rw [readAt, here]
  rw [decode, hread]
  simp only [bind, Except.bind, hgiven, hslice]

/-- A walk over a program meets the instructions that are listed. -/
theorem walk_instructions_eq {σ : Type} (step : Nat → σ → Except Misstep (Nat × σ))
    {b : CodeBuffer} (state : List Instruction → List Instruction → σ)
    (fits : b.len ≤ b.bytes.length)
    (advance : ∀ done i rest, b.instructions = done ++ i :: rest →
      step i.offset (state done (i :: rest))
        = .ok (i.immediate.length, state (done ++ [i]) rest)) :
    walk step b.len 0 (state [] b.instructions) = .ok (state b.instructions []) := by
  refine walk_eq_of_forall_step step (fun i => i.immediate.length) state b.chained_instructions
    (fun i hi => (CodeBuffer.mem_instructions_iff.mp hi).2) ?_
    (fun _ _ => ⟨Nat.le_refl _, fun _ => rfl⟩) advance
  rw [← b.listingEnd_eq]
  exact CodeBuffer.len_le_listingEnd fits

/-- The listing in place of a buffer whose instructions are whole is its listing. -/
theorem list_eq {b : CodeBuffer} (fits : b.len ≤ b.bytes.length)
    (fills : ∀ i ∈ b.instructions, i.Fills preparedWidth) :
    list b.bytes b.len = .ok b.instructions.toArray := by
  rw [list, Nat.min_eq_left fits]
  refine walk_instructions_eq (listStep b.bytes) (fun done _ => done.toArray) fits
    fun done i rest split => ?_
  have hi : i ∈ b.instructions := by
    rw [split]
    exact List.mem_append_cons_self
  rw [listStep, decode_of_mem_cut (mem_layout_of_mem_instructions hi) (fills i hi)]
  simp only [bind, Except.bind, List.push_toArray]

end EvmPrep.InPlace
