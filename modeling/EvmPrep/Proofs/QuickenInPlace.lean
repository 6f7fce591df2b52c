import EvmPrep.Proofs.InPlace
set_option autoImplicit false

/-!
# Quickening over one buffer

Quickening in place is ahead of its cursor: a push is treated together with the jump
behind it, while the walk over a list decides about a jump when it comes to it.  So
while the cursor stands at an instruction, the instructions in front of it are done, the
instruction itself is as the push in front of it leaves it (`settle`), and those behind
it are as they were (`underWay`).  With this for the state the two walks go side by
side, one step of the one beside one step of the other: at an instruction other than a
push nothing is left to do (`quickenStep_of_narrow`), and a push settles what stands
behind it (`quickenStep_of_wide`).

The look-ahead is where the padding is needed.  Behind the last push of a program there
is still a byte, it is a zero, and a zero is no jump (`exists_behind`).
-/

namespace EvmPrep

/-! ## The walk over a list, extended at its end -/

namespace QuickenContext

variable (ctx : QuickenContext)

/-- The word that the last of the instructions pushes; `pushed` if there is none. -/
def lastPushed (pushed : Option Word) (done : List Instruction) : Option Word :=
  (done.getLast?.map Instruction.pushValue?).getD pushed

theorem lastPushed_concat (pushed : Option Word) (done : List Instruction) (i : Instruction) :
    lastPushed pushed (done ++ [i]) = i.pushValue? := by
  rw [lastPushed, List.getLast?_concat]
  rfl

theorem lastPushed_cons (pushed : Option Word) (i : Instruction) (done : List Instruction) :
    lastPushed pushed (i :: done) = lastPushed i.pushValue? done := by
  rw [lastPushed, lastPushed, List.getLast?_cons]
  cases done.getLast? <;> rfl

theorem quickenAll_concat (pool : ConstantPool) (pushed : Option Word) (done : List Instruction)
    (i : Instruction) :
    ctx.quickenAll pool pushed (done ++ [i])
      = ((ctx.quickenAll pool pushed done).1
            ++ [(ctx.step (ctx.quickenAll pool pushed done).2 (lastPushed pushed done) i).1],
          (ctx.step (ctx.quickenAll pool pushed done).2 (lastPushed pushed done) i).2) := by
  induction done generalizing pool pushed with
  | nil => rw [List.nil_append, quickenAll_cons]; rfl
  | cons j rest ih =>
    rw [List.cons_append, quickenAll_cons, ih, quickenAll_cons, lastPushed_cons]
    rfl

end QuickenContext

namespace InPlace

open QuickenContext (lastPushed)

theorem ofOutcomes_concat (os : List Outcome) (o : Outcome) :
    QuickenStats.ofOutcomes (os ++ [o]) = addOutcome (.ofOutcomes os) o := by
  cases o <;> simp [QuickenStats.ofOutcomes, addOutcome, Outcome.isPooled, List.countP_append]

/-! ## Settled rows -/

section Settle

variable (ctx : QuickenContext)

/-- The row as an instruction that pushes `pushed` leaves it: if the first is a jump, it is
resolved. -/
def settle (pushed : Option Word) : List Instruction → List Instruction
  | [] => []
  | i :: rest => i.after (ctx.jumpOutcome pushed i) :: rest

/-- The figures, with the outcome of the first of the row if that is a jump. -/
def settleStats (pushed : Option Word) (stats : QuickenStats) : List Instruction → QuickenStats
  | [] => stats
  | i :: _ => addOutcome stats (ctx.jumpOutcome pushed i)

/-- What becomes of the bytes of the instructions `done`. -/
def treated (done : List Instruction) : List UInt8 :=
  (List.zipWith Instruction.after done (ctx.quickenAll .empty none done).1).flatMap
    Instruction.bytes

/-- What the walk in place has made of the code when it has treated the instructions `done`, and
`rest` and then `tail` are left. -/
def underWay (tail done rest : List Instruction) : Quickening where
  code := treated ctx done
    ++ (settle ctx (lastPushed none done) (rest ++ tail)).flatMap Instruction.bytes
  pool := (ctx.quickenAll .empty none done).2
  stats := settleStats ctx (lastPushed none done)
    (.ofOutcomes (ctx.quickenAll .empty none done).1) (rest ++ tail)

variable {ctx}

theorem settle_cons_of_resolved?_eq_none {pushed : Option Word} {i : Instruction}
    (h : i.resolved? = none) (rest : List Instruction) :
    settle ctx pushed (i :: rest) = i :: rest := by
  rw [settle, ctx.jumpOutcome_of_resolved?_eq_none pushed h]
  rfl

theorem settleStats_cons_of_resolved?_eq_none {pushed : Option Word} {i : Instruction}
    (h : i.resolved? = none) (stats : QuickenStats) (rest : List Instruction) :
    settleStats ctx pushed stats (i :: rest) = stats := by
  rw [settleStats, ctx.jumpOutcome_of_resolved?_eq_none pushed h]
  rfl

theorem settle_none (is : List Instruction) : settle ctx none is = is := by
  cases is <;> rfl

theorem settleStats_none (stats : QuickenStats) (is : List Instruction) :
    settleStats ctx none stats is = stats := by
  cases is <;> rfl

end Settle

/-! ## A push and what stands behind it -/

theorem narrow_idxOf_of_intern {pool pool' : ConstantPool} {w : Word} {index : UInt8}
    (h : pool.intern w = (some index, pool')) : narrow (pool'.entries.idxOf w) = .ok index := by
  have hindex : pool'.index? w = some index := by
    have hanswer := ConstantPool.intern_fst_of_isPrefix (p := pool) (w := w) List.prefix_rfl
    rw [h] at hanswer
    exact hanswer.symm
  obtain ⟨hmem, rfl⟩ := ConstantPool.index?_eq_some_iff.mp hindex
  have hlt := List.idxOf_lt_length_of_mem hmem
  have hle := pool'.size_le
  exact narrow_of_lt (by omega)

section Push

variable (ctx : QuickenContext) {s : Quickening} {front behind : List UInt8} {i : Instruction}
  {w : Word}

theorem exists_writeAt_toPooled {programLen : Nat} {code : List UInt8} (index : UInt8)
    (split : code = front ++ (i.bytes ++ behind)) (here : front.length = i.offset)
    (whole : i.immediate.length = pushWidth i.byte) (wide : 2 ≤ pushWidth i.byte)
    (room : i.offset + 2 < programLen) :
    ∃ code₁ code₂, writeAt programLen code i.offset Opcode.pushc.toByte = .ok code₁
      ∧ writeAt programLen code₁ (i.offset + 1) index = .ok code₂
      ∧ writeAt programLen code₂ (i.offset + 2) (UInt8.ofNat (pushWidth i.byte - 1))
        = .ok (front ++ ((i.toPooled index).bytes ++ behind)) := by
  obtain ⟨x, y, more, himmediate⟩ : ∃ x y more, i.immediate = x :: y :: more := by
    match hi : i.immediate with
    | x :: y :: more => exact ⟨x, y, more, rfl⟩
    | [_] =>
      rw [hi, List.length_singleton] at whole
      omega
    | [] =>
      rw [hi, List.length_nil] at whole
      omega
  have hhere₁ : (front ++ [Opcode.pushc.toByte]).length = i.offset + 1 := by simp [here]
  have hhere₂ : (front ++ [Opcode.pushc.toByte, index]).length = i.offset + 2 := by simp [here]
  have hroom : i.offset < programLen := by omega
  have hroom₁ : i.offset + 1 < programLen := by omega
  refine ⟨front ++ Opcode.pushc.toByte :: x :: y :: (more ++ behind),
    front ++ Opcode.pushc.toByte :: index :: y :: (more ++ behind), ?_, ?_, ?_⟩
  · rw [split, Instruction.bytes, himmediate]
    exact writeAt_append here hroom ..
  · simpa using writeAt_append hhere₁ hroom₁ x index (y :: (more ++ behind))
  · simpa [Instruction.bytes, Instruction.toPooled, himmediate] using
      writeAt_append hhere₂ room y (UInt8.ofNat (pushWidth i.byte - 1)) (more ++ behind)

/-- A push is pooled in place as the walk decides. -/
theorem poolPush_eq {outcome : Outcome} {pool : ConstantPool}
    (code : s.code = front ++ (i.bytes ++ behind)) (here : front.length = i.offset)
    (whole : i.immediate.length = pushWidth i.byte)
    (decided : ctx.pushOutcome s.pool i w = (outcome, pool)) :
    poolPush ctx i.offset (pushWidth i.byte) w s
      = .ok { code := front ++ ((i.after outcome).bytes ++ behind)
              pool := pool
              stats := addOutcome s.stats outcome } := by
  unfold QuickenContext.pushOutcome QuickenContext.isPoolable at decided
  unfold poolPush
  by_cases hpool : (ctx.config.usePool
      && (decide (2 ≤ pushWidth i.byte) && decide (i.offset + 2 < ctx.programLen))) = true
  · rw [if_pos hpool] at decided ⊢
    simp only [Bool.and_eq_true, decide_eq_true_eq] at hpool
    obtain ⟨-, hwide, hroom⟩ := hpool
    cases hintern : s.pool.intern w with
    | mk answer pool' =>
      rw [hintern] at decided
      cases answer with
      | none =>
        obtain ⟨rfl, rfl⟩ := Prod.mk.inj decided
        rw [Instruction.after, ← code]
      | some index =>
        obtain ⟨rfl, rfl⟩ := Prod.mk.inj decided
        have hnarrow := pushWidth_le i.byte
        have hlast : narrow (pushWidth i.byte - 1) = .ok (UInt8.ofNat (pushWidth i.byte - 1)) :=
          narrow_of_lt (by omega)
        obtain ⟨code₁, code₂, hfirst, hsecond, hthird⟩ :=
          exists_writeAt_toPooled index code here whole hwide hroom
        simp only [narrow_idxOf_of_intern hintern, hlast, hfirst, hsecond, hthird, bind,
          Except.bind]
        rfl
  · rw [if_neg hpool] at decided ⊢
    obtain ⟨rfl, rfl⟩ := Prod.mk.inj decided
    rw [Instruction.after, ← code]
    rfl

theorem readWord_of_pushValue? (here : front.length = i.offset)
    (whole : i.immediate.length = pushWidth i.byte) (pushed : i.pushValue? = some w)
    (behind : List UInt8) :
    readWord (front ++ (i.bytes ++ behind)) (i.offset + 1) (pushWidth i.byte) = .ok w := by
  have hfront : (front ++ [i.byte]).length = i.offset + 1 := by
    rw [List.length_append, here, List.length_singleton]
  have hslice : readSlice (front ++ (i.bytes ++ behind)) (i.offset + 1) (pushWidth i.byte)
      = .ok i.immediate := by
    simpa [Instruction.bytes] using readSlice_append hfront whole behind
  rw [readWord, hslice]
  simp only [bind, Except.bind, ofBytes?_of_pushValue? pushed]

/-- The jump behind a push is resolved in place as the walk decides. -/
theorem resolveJump_eq {offset : Nat} {j : Instruction} {rest : List Instruction}
    (code : s.code = front ++ (j :: rest).flatMap Instruction.bytes) (here : front.length = offset)
    (inside : j.resolved?.isSome = true → offset < ctx.programLen) :
    resolveJump ctx offset w s
      = .ok { code := front ++ (settle ctx (some w) (j :: rest)).flatMap Instruction.bytes
              pool := s.pool
              stats := settleStats ctx (some w) s.stats (j :: rest) } := by
  have hcode : s.code = front ++ j.byte :: (j.immediate ++ rest.flatMap Instruction.bytes) := by
    rw [code, List.flatMap_cons, Instruction.bytes, List.cons_append]
  have hread : readAt s.code offset = .ok j.byte := by
    rw [hcode]
    exact readAt_append here ..
  unfold resolveJump
  split
  case isFalse hoff =>
    have hkept : ctx.jumpOutcome (some w) j = .kept :=
      ctx.jumpOutcome_of_not_resolveJumps (some w) hoff
    rw [settle, settleStats, hkept, Instruction.after, ← code]
    rfl
  case isTrue hon =>
    rw [hread]
    simp only [bind, Except.bind]
    cases hresolved : j.opcode?.bind Opcode.resolved? with
    | none =>
      have hstill : j.resolved? = none := by rw [Instruction.resolved?, hresolved]
      rw [Instruction.opcode?] at hresolved
      rw [hresolved, settle_cons_of_resolved?_eq_none hstill,
        settleStats_cons_of_resolved?_eq_none hstill, ← code]
    | some o =>
      have hj : j.resolved? = some { j with byte := o.toByte } := by
        rw [Instruction.resolved?, hresolved]
      have hdecided : ctx.jumpOutcome (some w) j
          = if ctx.jumpTable.isValid w then .resolved else .leftDynamic := by
        simp only [QuickenContext.jumpOutcome, hj, hon, if_true]
      rw [Instruction.opcode?] at hresolved
      rw [hresolved, settle, settleStats, hdecided]
      dsimp only
      split
      · rw [hcode, writeAt_append here (inside (by rw [hj]; rfl)), Instruction.after, hj,
          Option.getD_some, List.flatMap_cons, Instruction.bytes, List.cons_append]
      · rw [Instruction.after, ← code]

/-- At a push both are treated, the push and what stands behind it. -/
theorem quickenStep_of_pushValue? {outcome : Outcome} {pool : ConstantPool} {j : Instruction}
    {more : List Instruction}
    (code : s.code = front ++ (i.bytes ++ (j :: more).flatMap Instruction.bytes))
    (here : front.length = i.offset) (whole : i.immediate.length = pushWidth i.byte)
    (wide : pushWidth i.byte ≠ 0) (pushed : i.pushValue? = some w)
    (decided : ctx.pushOutcome s.pool i w = (outcome, pool)) (next : j.offset = i.offset + i.size)
    (inside : j.resolved?.isSome = true → j.offset < ctx.programLen) :
    quickenStep ctx i.offset s
      = .ok (i.immediate.length,
          { code := front ++ ((i.after outcome).bytes
              ++ (settle ctx (some w) (j :: more)).flatMap Instruction.bytes)
            pool := pool
            stats := settleStats ctx (some w) (addOutcome s.stats outcome) (j :: more) }) := by
  have hread : readAt s.code i.offset = .ok i.byte := by
    rw [code]
    exact readAt_append here ..
  have hword : readWord s.code (i.offset + 1) (pushWidth i.byte) = .ok w := by
    rw [code]
    exact readWord_of_pushValue? here whole pushed _
  have hpush := poolPush_eq ctx code here whole decided
  -- the push keeps its size, so the cursor is where the next instruction stands
  have hsize : (i.after outcome).size = i.size := by
    have hstep : ctx.step s.pool none i = (outcome, pool) := by
      rw [QuickenContext.step, pushed]
      exact decided
    have hplace : (i.after (ctx.step s.pool none i).1).place = i.place :=
      place_after_step s.pool whole
    rw [hstep] at hplace
    exact congrArg Prod.snd hplace
  have hfront : (front ++ (i.after outcome).bytes).length = i.offset + 1 + pushWidth i.byte := by
    rw [List.length_append, here, Instruction.length_bytes, hsize, Instruction.size, whole]
    omega
  rw [Instruction.size, whole] at next
  have hjump := resolveJump_eq (s := ⟨front ++ ((i.after outcome).bytes
      ++ (j :: more).flatMap Instruction.bytes), pool, addOutcome s.stats outcome⟩) (w := w) ctx
    (List.append_assoc ..).symm hfront fun hj => by
      have := inside hj
      omega
  rw [quickenStep, hread]
  simp only [bind, Except.bind, if_neg wide, hword, hpush, hjump, whole, List.append_assoc]

end Push

/-! ## One step -/

section Step

variable {code : AnalyzedCode} {config : QuickenConfig} {tail done rest : List Instruction}
  {i : Instruction}

/-- The state in front of an instruction: the push before it may have changed it, but nothing behind
it. -/
theorem underWay_cons (ctx : QuickenContext) (tail done rest : List Instruction)
    (i : Instruction) :
    underWay ctx tail done (i :: rest)
      = { code := treated ctx done ++ ((i.after (ctx.jumpOutcome (lastPushed none done) i)).bytes
            ++ (rest ++ tail).flatMap Instruction.bytes)
          pool := (ctx.quickenAll .empty none done).2
          stats := addOutcome (.ofOutcomes (ctx.quickenAll .empty none done).1)
            (ctx.jumpOutcome (lastPushed none done) i) } := by
  rw [underWay, List.cons_append, settle, settleStats, List.flatMap_cons]

/-- The state behind an instruction, told by what the walk decides about the instruction. -/
theorem underWay_concat (ctx : QuickenContext) (tail done rest : List Instruction)
    (i : Instruction) {outcome : Outcome} {pool : ConstantPool}
    (step : ctx.step (ctx.quickenAll .empty none done).2 (lastPushed none done) i
      = (outcome, pool)) :
    underWay ctx tail (done ++ [i]) rest
      = { code := treated ctx done ++ ((i.after outcome).bytes
            ++ (settle ctx i.pushValue? (rest ++ tail)).flatMap Instruction.bytes)
          pool := pool
          stats := settleStats ctx i.pushValue?
            (addOutcome (.ofOutcomes (ctx.quickenAll .empty none done).1) outcome)
            (rest ++ tail) } := by
  have hlength := ctx.length_quickenAll .empty none done
  rw [underWay, treated, QuickenContext.quickenAll_concat, QuickenContext.lastPushed_concat, step,
    ofOutcomes_concat, List.zipWith_append hlength.symm, List.zipWith_cons_cons,
    List.zipWith_nil_left, List.flatMap_append, List.flatMap_singleton, List.append_assoc, treated]

theorem length_treated (sound : code.Sound) (split : code.instructions = done ++ i :: rest)
    (ctx : QuickenContext) :
    (treated ctx done).length = i.offset := by
  have hchained := code.chained_instructions
  rw [split, chained_append, Nat.zero_add] at hchained
  obtain ⟨-, hoffset, -⟩ := hchained
  have hwhole : ∀ j ∈ done, j.immediate.length = pushWidth j.byte := fun j hj => by
    refine sound.whole j (mem_layout_of_mem_instructions ?_)
    rw [split]
    exact List.mem_append_left _ hj
  rw [treated, length_flatMap_bytes_of_map_place_eq (map_place_zipWith_after _ _ _ hwhole), hoffset]

/-- Behind every listed instruction there is one more, if only a `STOP` of the padding. -/
theorem exists_behind (sound : code.Sound) (padded : code.bytes.length = code.len + 33)
    (layout : code.layout = code.instructions ++ tail)
    (split : code.instructions = done ++ i :: rest) :
    ∃ j more, rest ++ tail = j :: more ∧ j.offset = i.offset + i.size := by
  have hchained := code.chained_layout
  have hbytes := code.flatMap_bytes_layout
  rw [layout, split, List.append_assoc, List.cons_append] at hchained hbytes
  obtain ⟨-, hoffset, hrest⟩ := chained_append.mp hchained
  cases hbehind : rest ++ tail with
  | cons j more =>
    rw [hbehind, Nat.zero_add] at hrest
    exact ⟨j, more, rfl, by rw [hrest.1, hoffset, Nat.zero_add]⟩
  | nil =>
    -- the widest instruction that starts in the program leaves a byte of the padding behind it
    have hi : i ∈ code.instructions := by
      rw [split]
      exact List.mem_append_cons_self
    obtain ⟨hmem, hlt⟩ := CodeBuffer.mem_instructions_iff.mp hi
    have hsize := sound.whole i hmem
    have hnarrow := pushWidth_le i.byte
    have hend := congrArg List.length hbytes
    rw [hbehind, List.flatMap_append, List.length_append, List.flatMap_singleton,
      Instruction.length_bytes, Instruction.size] at hend
    omega

theorem pushWidth_after_jumpOutcome (ctx : QuickenContext) (pushed : Option Word)
    (narrow : pushWidth i.byte = 0) (noWord : i.pushValue? = none) :
    pushWidth (i.after (ctx.jumpOutcome pushed i)).byte = 0 := by
  have hreplacement : ctx.replacement .empty pushed i = i.after (ctx.jumpOutcome pushed i) := by
    simp only [QuickenContext.replacement, QuickenContext.outcomeIn, noWord]
  rw [← hreplacement]
  rcases replacement_cases ctx .empty pushed i with
    ⟨w, -, -, -, hw, -⟩ | ⟨j, w, -, hj, -, -, h⟩ | h
  · rw [noWord] at hw
    cases hw
  · obtain ⟨-, -, hstill, -⟩ := plain_of_resolved? hj
    rw [h]
    exact hstill
  · rw [h]
    exact narrow

/-- At an instruction other than a push nothing is left to do: if it is a jump, the push in front of
it has seen to it. -/
theorem quickenStep_of_narrow (sound : code.Sound) (split : code.instructions = done ++ i :: rest)
    (ctx : QuickenContext) (tail : List Instruction) (narrow : pushWidth i.byte = 0) :
    quickenStep ctx i.offset (underWay ctx tail done (i :: rest))
      = .ok (i.immediate.length, underWay ctx tail (done ++ [i]) rest) := by
  have hmem : i ∈ code.layout := mem_layout_of_mem_instructions (by
    rw [split]
    exact List.mem_append_cons_self)
  have hnone : i.pushValue? = none := by
    rw [Instruction.pushValue?, operand_eq_absent (sound.plain i hmem).1 narrow]
  have hstep : ctx.step (ctx.quickenAll .empty none done).2 (lastPushed none done) i
      = (ctx.jumpOutcome (lastPushed none done) i, (ctx.quickenAll .empty none done).2) := by
    simp only [QuickenContext.step, hnone]
  have hsame : underWay ctx tail (done ++ [i]) rest = underWay ctx tail done (i :: rest) := by
    rw [underWay_concat ctx tail done rest i hstep, underWay_cons, hnone, settle_none,
      settleStats_none]
  have hread : readAt (underWay ctx tail done (i :: rest)).code i.offset
      = .ok (i.after (ctx.jumpOutcome (lastPushed none done) i)).byte := by
    rw [underWay_cons]
    exact readAt_append (length_treated sound split ctx) ..
  rw [hsame, sound.whole i hmem, narrow, quickenStep, hread]
  simp only [bind, Except.bind, pushWidth_after_jumpOutcome ctx _ narrow hnone, if_true]

/-- At a push the walk moves on by one. -/
theorem quickenStep_of_wide (sound : code.Sound) (padded : code.bytes.length = code.len + 33)
    (layout : code.layout = code.instructions ++ tail)
    (split : code.instructions = done ++ i :: rest) (wide : pushWidth i.byte ≠ 0) :
    quickenStep (code.quickenContext config) i.offset
        (underWay (code.quickenContext config) tail done (i :: rest))
      = .ok (i.immediate.length,
          underWay (code.quickenContext config) tail (done ++ [i]) rest) := by
  have hmem : i ∈ code.layout := mem_layout_of_mem_instructions (by
    rw [split]
    exact List.mem_append_cons_self)
  obtain ⟨w, hw⟩ : ∃ w, i.pushValue? = some w := ⟨_, sound.pushValue?_eq hmem wide⟩
  obtain ⟨j, more, hbehind, hoffset⟩ := exists_behind sound padded layout split
  have hinside : j.resolved?.isSome = true → j.offset < code.len := fun hj => by
    refine Nat.lt_of_not_le fun hle => ?_
    have hjmem : j ∈ code.layout := by
      rw [layout, split, List.append_assoc, List.cons_append, hbehind]
      simp
    rw [resolved?_of_byte_eq_zero (sound.padded j hjmem hle)] at hj
    cases hj
  -- a push is no jump, so it stands there as it did
  have hstill : i.resolved? = none := by
    cases hj : i.resolved? with
    | none => rfl
    | some j => exact absurd (plain_of_resolved? hj).1 wide
  generalize hctx : code.quickenContext config = ctx
  cases hdecided : ctx.pushOutcome (ctx.quickenAll .empty none done).2 i w with
  | mk outcome pool =>
    have hstep : ctx.step (ctx.quickenAll .empty none done).2 (lastPushed none done) i
        = (outcome, pool) := by
      rw [QuickenContext.step, hw]
      exact hdecided
    rw [underWay_concat ctx tail done rest i hstep, underWay_cons,
      ctx.jumpOutcome_of_resolved?_eq_none _ hstill, hw, hbehind]
    exact quickenStep_of_pushValue? ctx rfl (length_treated sound split ctx) (sound.whole i hmem)
      wide hw hdecided hoffset (by rw [← hctx]; exact hinside)

end Step

/-! ## The walk -/

section Walk

variable {code : AnalyzedCode} (sound : code.Sound) (padded : code.bytes.length = code.len + 33)
  (config : QuickenConfig)
include sound

theorem settle_padding {tail : List Instruction} (layout : code.layout = code.instructions ++ tail)
    (behind : ∀ i ∈ tail, code.len ≤ i.offset) (ctx : QuickenContext) (pushed : Option Word)
    (stats : QuickenStats) :
    settle ctx pushed tail = tail ∧ settleStats ctx pushed stats tail = stats := by
  cases tail with
  | nil => exact ⟨rfl, rfl⟩
  | cons j more =>
    have hstill : j.resolved? = none := by
      refine resolved?_of_byte_eq_zero (sound.padded j ?_ (behind j (List.mem_cons_self ..)))
      rw [layout]
      exact List.mem_append_right _ (List.mem_cons_self ..)
    exact ⟨settle_cons_of_resolved?_eq_none hstill more,
      settleStats_cons_of_resolved?_eq_none hstill stats more⟩

include padded

/-- Quickening in place makes of sound code what quickening makes of it. -/
theorem quicken_eq :
    quicken (code.quickenContext config) code.bytes
      = .ok ⟨(code.quicken config).bytes, (code.quicken config).pool,
          (code.quicken config).stats⟩ := by
  obtain ⟨tail, hlayout, hbehind⟩ := code.layout_eq_append
  have hwalk := walk_instructions_eq (quickenStep (code.quickenContext config))
    (underWay (code.quickenContext config) tail) (by omega : code.len ≤ code.bytes.length)
    fun done i rest split => by
      by_cases hpush : pushWidth i.byte = 0
      · exact quickenStep_of_narrow sound split _ tail hpush
      · exact quickenStep_of_wide sound padded hlayout split hpush
  have hstart : underWay (code.quickenContext config) tail [] code.instructions
      = ⟨code.bytes, .empty, .ofOutcomes []⟩ := by
    have hnone : lastPushed none ([] : List Instruction) = none := rfl
    rw [underWay, hnone, settle_none, settleStats_none, ← hlayout, code.flatMap_bytes_layout]
    rfl
  have hend : underWay (code.quickenContext config) tail code.instructions []
      = ⟨(code.quicken config).bytes, (code.quicken config).pool, (code.quicken config).stats⟩ := by
    rw [underWay, List.nil_append, (settle_padding sound hlayout hbehind _ _ default).1,
      (settle_padding sound hlayout hbehind _ _ _).2, treated, ← List.flatMap_append,
      bytes_quicken sound config hlayout]
    rfl
  rw [hstart, hend] at hwalk
  exact hwalk

end Walk

end InPlace

end EvmPrep
