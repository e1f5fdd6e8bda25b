import PosixTasks.DuplexCopy.Echo

/-!
# What the parent writes to `child.txt`

In its loop the parent reads `parent.txt` twice and writes `child.txt` twice, as `rcv` and `snd`
mean the files. `run.sh` compares the two files, and nothing is missing as long as the second block
is as long as the first one. Where the last two blocks of the file differ in length, the shorter
one is read by `rcv`, and the parent leaves its loop without writing it.

## Main results

* `copied_step`: what is in `child.txt` is a first part of `parent.txt`, if every `write` takes all
  of its bytes;
* `output_of_run`: how much is missing in the end, if every `read` returns all that it can.
-/

namespace DuplexCopy

open Descriptors Transition

variable {self : DuplexPipe} {input : List Byte} {capacity : ℕ} {old : Option (List Byte)}
  {t : Table File} {s u : State} {a : Action}

/-- A `write` of the parent takes all the bytes it is given. -/
def WritesAll (s : State) : Action → Prop
  | .parentSend n | .parentWrite n => n = (s.parentData.take s.parentLen).length
  | _ => True

instance (s : State) : DecidablePred (WritesAll s)
  | .parentSend _ | .parentWrite _ => inferInstanceAs (Decidable (_ = _))
  | .parentClose | .parentOpenIn | .parentOpenOut | .parentRead _ | .parentReceive _ | .parentWait
  | .childClose | .childExit | .childReceive _ | .childSend _ => isTrue trivial

/-- A `read` of `parent.txt` returns all that it has room for, or all that is left. -/
def ReadsAll (input : List Byte) (s : State) : Action → Prop
  | .parentRead n | .parentReceive n => n = min maxBufSize (input.length - s.offset)
  | _ => True

instance (input : List Byte) (s : State) : DecidablePred (ReadsAll input s)
  | .parentRead _ | .parentReceive _ => inferInstanceAs (Decidable (_ = _))
  | .parentClose | .parentOpenIn | .parentOpenOut | .parentSend _ | .parentWrite _ | .parentWait
  | .childClose | .childExit | .childReceive _ | .childSend _ => isTrue trivial

/-- How many bytes of a file of this length reach `child.txt`. -/
def copiedLength (length : ℕ) : ℕ :=
  if length / maxBufSize % 2 = 1 then length / maxBufSize * maxBufSize else length

/-! ## The child -/

/-- The parent, the offset and the two files are as they were. -/
structure SameParent (s u : State) : Prop where
  parent : u.parent = s.parent
  parentTable : u.parentTable = s.parentTable
  parentData : u.parentData = s.parentData
  parentLen : u.parentLen = s.parentLen
  offset : u.offset = s.offset
  childTxt : u.childTxt = s.childTxt

/-- The calls of the child. -/
def Action.OfChild : Action → Prop
  | .childClose | .childExit | .childReceive _ | .childSend _ => True
  | _ => False

/-- The child leaves the parent and the files alone. -/
theorem frame_child (ha : a.OfChild) (hstage : Stage self t s)
    (hs : step self input capacity s a = some u) : SameParent s u := by
  cases a with
  | childClose =>
    simp only [step] at hs
    split at hs <;> cases hs <;> exact ⟨rfl, rfl, rfl, rfl, rfl, rfl⟩
  | childExit =>
    simp only [step, Option.ite_none_right_eq_some, Option.some.injEq] at hs
    obtain ⟨-, rfl⟩ := hs
    exact ⟨rfl, rfl, rfl, rfl, rfl, rfl⟩
  | childReceive n =>
    obtain ⟨-, rfl⟩ := step_childReceive hstage hs
    exact ⟨rfl, rfl, rfl, rfl, rfl, rfl⟩
  | childSend n =>
    -- the child has nothing to send
    have hchild := hstage.childTable
    simp only [step, Option.ite_none_right_eq_some] at hs
    rw [ChildTable, hs.1] at hchild
    exact hchild.elim
  | _ => exact ha.elim

/-! ## A first part of the file -/

/-- The block in the parent's buffer is the last one read, and it has not been written. -/
structure Block (input : List Byte) (s : State) : Prop where
  pos : 0 < s.parentLen
  le_offset : s.parentLen ≤ s.offset
  offset_le : s.offset ≤ input.length
  data : s.parentData.take s.parentLen = (input.drop (s.offset - s.parentLen)).take s.parentLen
  childTxt : s.childTxt = some (input.take (s.offset - s.parentLen))

/-- What is in `child.txt`, by what the parent is about to do. -/
def Copied (input : List Byte) (s : State) : Prop :=
  match s.parent with
  | .closing _ | .openingIn | .openingOut => s.offset = 0
  | .reading => s.offset ≤ input.length ∧ s.childTxt = some (input.take s.offset)
  | .sending | .writing => Block input s
  | .receiving =>
      0 < s.parentLen ∧ s.parentLen ≤ s.offset ∧ s.offset ≤ input.length ∧
        s.childTxt = some (input.take s.offset)
  | .finishing _ | .waiting | .waited => ∃ k, s.childTxt = some (input.take k)

/-- Reading a block leaves `child.txt` where it was. -/
theorem Block.of_read {n : ℕ} (hpos : 0 < n) (hread : FileReadReturns input s.offset n)
    (hle : s.offset ≤ input.length) (htxt : s.childTxt = some (input.take s.offset))
    (hdata : u.parentData = s.readInto input n) (hlen : u.parentLen = n)
    (hoffset : u.offset = s.offset + n) (hchild : u.childTxt = s.childTxt) : Block input u where
  pos := by omega
  le_offset := by omega
  offset_le := by
    have := hread.2.1
    omega
  data := by
    have hread : ((input.drop s.offset).take n).length = n := Pieces.length_take_drop hread.2.1
    rw [hdata, hlen, hoffset, Nat.add_sub_cancel, State.readInto,
      List.take_append_of_le_length hread.ge, List.take_of_length_le hread.le]
  childTxt := by rw [hchild, htxt, hlen, hoffset, Nat.add_sub_cancel]

/-- A block that is written as a whole makes `child.txt` longer by the block. -/
theorem Block.afterWrite (h : Block input s) :
    (s.afterWrite (s.parentData.take s.parentLen).length).childTxt =
      some (input.take s.offset) := by
  have hsplit : input.take (s.offset - s.parentLen) ++ (input.drop (s.offset - s.parentLen)).take
      s.parentLen = input.take s.offset := by
    rw [← List.take_add, Nat.sub_add_cancel h.le_offset]
  rw [State.afterWrite, h.childTxt, List.take_length, h.data, Option.map_some, hsplit]

/-- The block is as long as `len` says. -/
theorem Block.length_data (h : Block input s) :
    (s.parentData.take s.parentLen).length = s.parentLen := by
  have hle := h.le_offset
  have hoffset := h.offset_le
  rw [h.data, List.length_take, List.length_drop]
  omega

theorem Block.congr (h : Block input s) (hsame : SameParent s u) : Block input u where
  pos := by rw [hsame.parentLen]; exact h.pos
  le_offset := by rw [hsame.parentLen, hsame.offset]; exact h.le_offset
  offset_le := by rw [hsame.offset]; exact h.offset_le
  data := by rw [hsame.parentData, hsame.parentLen, hsame.offset]; exact h.data
  childTxt := by rw [hsame.childTxt, hsame.offset, hsame.parentLen]; exact h.childTxt

theorem Copied.congr (h : Copied input s) (hsame : SameParent s u) : Copied input u := by
  unfold Copied at h ⊢
  rw [hsame.parent, hsame.offset, hsame.parentLen, hsame.childTxt]
  cases hpc : s.parent <;> rw [hpc] at h
  case sending | writing => exact h.congr hsame
  all_goals exact h

theorem copied_of_left {bytes : List Byte} (hleft : u.parent.LeftLoop)
    (htxt : u.childTxt = some bytes) (hbytes : ∃ k, bytes = input.take k) : Copied input u := by
  obtain ⟨k, rfl⟩ := hbytes
  unfold Copied
  cases hpc : u.parent with
  | finishing | waiting | waited => exact ⟨k, htxt⟩
  | _ =>
    rw [hpc] at hleft
    exact hleft.elim

/-- Every step keeps a first part of the file in `child.txt`. -/
theorem copied_step (hends : Ends self t) (hstage : Stage self t s) (h : Copied input s)
    (hall : WritesAll s a) (hs : step self input capacity s a = some u) : Copied input u := by
  cases a with
  | parentClose =>
    simp only [step] at hs
    split at hs
    next fd fds hpc =>
      cases hs
      rw [Copied, hpc] at h
      by_cases hnil : fds = [] <;> simpa [Copied, hnil] using h
    next fd fds hpc =>
      cases hs
      rw [Copied, hpc] at h
      by_cases hnil : fds = [] <;> simpa [Copied, hnil] using h
    next => cases hs
  | parentOpenIn =>
    simp only [step, Option.ite_none_right_eq_some, Option.some.injEq] at hs
    obtain ⟨hpc, rfl⟩ := hs
    rwa [Copied, hpc] at h
  | parentOpenOut =>
    simp only [step, Option.ite_none_right_eq_some, Option.some.injEq] at hs
    obtain ⟨hpc, rfl⟩ := hs
    rw [Copied, hpc] at h
    exact ⟨by simp [h], by simp [h]⟩
  | parentRead n =>
    have hfiles := hstage.meansFiles hends (inLoop_of_step (a := .parentRead n) trivial hs)
    obtain ⟨hpc, hread, rfl⟩ := step_parentRead hfiles hs
    rw [Copied, hpc] at h
    split
    next hpos => exact Block.of_read hpos hread h.1 h.2 rfl rfl rfl rfl
    next => exact copied_of_left trivial h.2 ⟨_, rfl⟩
  | parentSend n =>
    have hfiles := hstage.meansFiles hends (inLoop_of_step (a := .parentSend n) trivial hs)
    obtain ⟨hpc, -, rfl⟩ := step_parentSend hfiles hs
    obtain rfl : n = _ := hall
    rw [Copied, hpc] at h
    rw [if_pos h.length_data]
    exact ⟨h.pos, h.le_offset, h.offset_le, h.afterWrite⟩
  | parentReceive n =>
    have hfiles := hstage.meansFiles hends (inLoop_of_step (a := .parentReceive n) trivial hs)
    obtain ⟨hpc, hread, rfl⟩ := step_parentReceive hfiles hs
    rw [Copied, hpc] at h
    obtain ⟨hpos, hle, hoffset, htxt⟩ := h
    split
    next heq => exact Block.of_read (by omega) hread hoffset htxt rfl heq.symm rfl rfl
    -- a block of another length ends the loop and is not written
    next => exact copied_of_left trivial htxt ⟨_, rfl⟩
  | parentWrite n =>
    have hfiles := hstage.meansFiles hends (inLoop_of_step (a := .parentWrite n) trivial hs)
    obtain ⟨hpc, -, rfl⟩ := step_parentWrite hfiles hs
    obtain rfl : n = _ := hall
    rw [Copied, hpc] at h
    exact ⟨h.offset_le, h.afterWrite⟩
  | parentWait =>
    simp only [step, Option.ite_none_right_eq_some, Option.some.injEq] at hs
    obtain ⟨⟨hpc, -⟩, rfl⟩ := hs
    rwa [Copied, hpc] at h
  | childClose => exact h.congr (frame_child (a := .childClose) trivial hstage hs)
  | childExit => exact h.congr (frame_child (a := .childExit) trivial hstage hs)
  | childReceive n => exact h.congr (frame_child (a := .childReceive n) trivial hstage hs)
  | childSend n => exact h.congr (frame_child (a := .childSend n) trivial hstage hs)

/-! ## How much of the file -/

/-- The last block is short: the file has been read in pairs of blocks, and it is the first one of
its pair. -/
theorem copiedLength_of_first {length offset : ℕ} (hpairs : 2 * maxBufSize ∣ offset)
    (hle : offset ≤ length) (hrest : length - offset < maxBufSize) :
    copiedLength length = length := by
  obtain ⟨k, rfl⟩ := hpairs
  rw [copiedLength, if_neg]
  simp only [maxBufSize] at *
  omega

/-- The last block is short, and it is the second one of its pair. -/
theorem copiedLength_of_second {length offset : ℕ} (hpairs : 2 * maxBufSize ∣ offset)
    (hle : offset + maxBufSize ≤ length) (hrest : length - (offset + maxBufSize) < maxBufSize) :
    copiedLength length = offset + maxBufSize := by
  obtain ⟨k, rfl⟩ := hpairs
  rw [copiedLength, if_pos]
  all_goals
    simp only [maxBufSize] at *
    omega

/-- Nothing is missing if the last block has no partner, or is a full one. -/
theorem copiedLength_eq_iff (length : ℕ) :
    copiedLength length = length ↔ length / maxBufSize % 2 = 0 ∨ maxBufSize ∣ length := by
  rw [Nat.dvd_iff_mod_eq_zero]
  unfold copiedLength
  split
  next hodd =>
    have hsplit := Nat.div_add_mod' length maxBufSize
    constructor
    · intro heq
      exact Or.inr (by omega)
    · intro hwhole
      omega
  next hodd => simp [Nat.mod_two_ne_one.mp hodd]

/-- Where the blocks of the parent lie in the file. -/
def Aligned (input : List Byte) (s : State) : Prop :=
  match s.parent with
  | .closing _ | .openingIn | .openingOut => True
  | .reading => 2 * maxBufSize ∣ s.offset
  | .sending | .receiving =>
      2 * maxBufSize ∣ s.offset - s.parentLen ∧
        s.parentLen = min maxBufSize (input.length - (s.offset - s.parentLen))
  | .writing => 2 * maxBufSize ∣ s.offset
  | .finishing _ | .waiting | .waited =>
      s.childTxt = some (input.take (copiedLength input.length))

theorem Aligned.congr (h : Aligned input s) (hsame : SameParent s u) : Aligned input u := by
  unfold Aligned at h ⊢
  rw [hsame.parent, hsame.offset, hsame.parentLen, hsame.childTxt]
  exact h

theorem aligned_of_left (hleft : u.parent.LeftLoop)
    (htxt : u.childTxt = some (input.take (copiedLength input.length))) : Aligned input u := by
  unfold Aligned
  cases hpc : u.parent with
  | finishing | waiting | waited => exact htxt
  | _ =>
    rw [hpc] at hleft
    exact hleft.elim

/-- With full reads and writes the parent copies one pair of full blocks after the other. -/
theorem aligned_step (hends : Ends self t) (hstage : Stage self t s) (hcopied : Copied input s)
    (h : Aligned input s) (hwrites : WritesAll s a) (hreads : ReadsAll input s a)
    (hs : step self input capacity s a = some u) : Aligned input u := by
  cases a with
  | parentClose =>
    simp only [step] at hs
    split at hs
    next fd fds hpc =>
      cases hs
      by_cases hnil : fds = [] <;> simp [Aligned, hnil]
    next fd fds hpc =>
      cases hs
      rw [Aligned, hpc] at h
      by_cases hnil : fds = [] <;> simpa [Aligned, hnil] using h
    next => cases hs
  | parentOpenIn =>
    simp only [step, Option.ite_none_right_eq_some, Option.some.injEq] at hs
    obtain ⟨-, rfl⟩ := hs
    trivial
  | parentOpenOut =>
    simp only [step, Option.ite_none_right_eq_some, Option.some.injEq] at hs
    obtain ⟨hpc, rfl⟩ := hs
    rw [Copied, hpc] at hcopied
    simp [Aligned, hcopied]
  | parentRead n =>
    have hfiles := hstage.meansFiles hends (inLoop_of_step (a := .parentRead n) trivial hs)
    obtain ⟨hpc, -, rfl⟩ := step_parentRead hfiles hs
    obtain rfl : n = _ := hreads
    rw [Aligned, hpc] at h
    rw [Copied, hpc] at hcopied
    obtain ⟨hle, htxt⟩ := hcopied
    split
    next => simpa [Aligned, State.afterRead] using h
    next hzero =>
      have hmax : 0 < maxBufSize := by decide
      have hend : s.offset = input.length := by omega
      refine aligned_of_left trivial ?_
      rw [copiedLength_of_first h hle (by omega), ← hend]
      exact htxt
  | parentSend n =>
    have hfiles := hstage.meansFiles hends (inLoop_of_step (a := .parentSend n) trivial hs)
    obtain ⟨hpc, -, rfl⟩ := step_parentSend hfiles hs
    obtain rfl : n = _ := hwrites
    rw [Aligned, hpc] at h
    rw [Copied, hpc] at hcopied
    rw [if_pos hcopied.length_data]
    exact h
  | parentReceive n =>
    have hfiles := hstage.meansFiles hends (inLoop_of_step (a := .parentReceive n) trivial hs)
    obtain ⟨hpc, -, rfl⟩ := step_parentReceive hfiles hs
    obtain rfl : n = _ := hreads
    rw [Aligned, hpc] at h
    rw [Copied, hpc] at hcopied
    obtain ⟨hpairs, hlen⟩ := h
    obtain ⟨hpos, hle, hoffset, htxt⟩ := hcopied
    split
    next heq =>
      -- both blocks are full ones
      have hfull : s.parentLen = maxBufSize := by omega
      obtain ⟨k, hk⟩ := hpairs
      refine ⟨k + 1, ?_⟩
      simp only [State.afterRead]
      rw [heq, hfull, Nat.mul_succ, ← hk, hfull]
      omega
    next hne =>
      refine aligned_of_left trivial (htxt.trans ?_)
      -- either the first block of the pair was the last one, or the second one is too short
      rcases Nat.lt_or_ge s.parentLen maxBufSize with hshort | hfull
      · have hend : s.offset = input.length := by omega
        rw [copiedLength_of_first hpairs (by omega) (by omega), hend]
      · have hblock : s.parentLen = maxBufSize := by omega
        have hstart : s.offset - s.parentLen + maxBufSize = s.offset := by omega
        rw [copiedLength_of_second hpairs (by omega) (by omega), hstart]
  | parentWrite n =>
    have hfiles := hstage.meansFiles hends (inLoop_of_step (a := .parentWrite n) trivial hs)
    obtain ⟨hpc, -, rfl⟩ := step_parentWrite hfiles hs
    rw [Aligned, hpc] at h
    exact h
  | parentWait =>
    simp only [step, Option.ite_none_right_eq_some, Option.some.injEq] at hs
    obtain ⟨⟨hpc, -⟩, rfl⟩ := hs
    rwa [Aligned, hpc] at h
  | childClose => exact h.congr (frame_child (a := .childClose) trivial hstage hs)
  | childExit => exact h.congr (frame_child (a := .childExit) trivial hstage hs)
  | childReceive n => exact h.congr (frame_child (a := .childReceive n) trivial hstage hs)
  | childSend n => exact h.congr (frame_child (a := .childSend n) trivial hstage hs)

/-! ## Runs -/

theorem copied_of_run (hends : Ends self t) {tr : List (State × Action)}
    (hrun : Run (step self input capacity) (init self t old) tr s)
    (hwrites : StepsMeet WritesAll tr) : Stage self t s ∧ Copied input s :=
  hrun.invariant (I := fun v => Stage self t v ∧ Copied input v) ⟨stage_init hends old, rfl⟩
    (fun _ _ _ hv hall hs => ⟨stage_step hends hv.1 hs, copied_step hends hv.1 hv.2 hall hs⟩)
    hwrites

theorem aligned_of_run (hends : Ends self t) {tr : List (State × Action)}
    (hrun : Run (step self input capacity) (init self t old) tr s)
    (hwrites : StepsMeet WritesAll tr) (hreads : StepsMeet (ReadsAll input) tr) :
    Aligned input s := by
  have hall : (Stage self t s ∧ Copied input s) ∧ Aligned input s :=
    hrun.invariant (I := fun v => (Stage self t v ∧ Copied input v) ∧ Aligned input v)
      ⟨⟨stage_init hends old, rfl⟩, trivial⟩
      (fun v a _ hv (hall : WritesAll v a ∧ ReadsAll input v a) hs =>
        ⟨⟨stage_step hends hv.1.1 hs, copied_step hends hv.1.1 hv.1.2 hall.1 hs⟩,
          aligned_step hends hv.1.1 hv.1.2 hv.2 hall.1 hall.2 hs⟩)
      fun x hx => ⟨hwrites x hx, hreads x hx⟩
  exact hall.2

/-- If every `write` takes all of its bytes, `child.txt` holds a first part of `parent.txt` when
the parent has left its loop. If besides every `read` returns all that it can, the part is the
whole file, or the whole file without a last block that is shorter than the one before it; so the
two files are the same exactly if the number of full blocks is even or there is no shorter one. -/
theorem output_of_run (t₀ : Table File) {tr : List (State × Action)}
    (hrun : Run (step (createDuplexPipe t₀).1 input capacity)
      (init (createDuplexPipe t₀).1 (createDuplexPipe t₀).2 old) tr s)
    (hleft : s.parent.LeftLoop) (hwrites : StepsMeet WritesAll tr) :
    (∃ k, s.childTxt = some (input.take k)) ∧
      (StepsMeet (ReadsAll input) tr →
        s.childTxt = some (input.take (copiedLength input.length)) ∧
          (s.childTxt = some input ↔
            input.length / maxBufSize % 2 = 0 ∨ maxBufSize ∣ input.length)) := by
  have hends := createDuplexPipe_ends t₀
  have hcopied := (copied_of_run hends hrun hwrites).2
  refine ⟨?_, fun hreads => ?_⟩
  · unfold Copied at hcopied
    -- behind the loop the text is fixed
    cases hpc : s.parent <;> rw [hpc] at hleft hcopied
    case finishing | waiting | waited => exact hcopied
    all_goals exact hleft.elim
  · have htxt : s.childTxt = some (input.take (copiedLength input.length)) := by
      have haligned := aligned_of_run hends hrun hwrites hreads
      unfold Aligned at haligned
      cases hpc : s.parent <;> rw [hpc] at hleft haligned
      case finishing | waiting | waited => exact haligned
      all_goals exact hleft.elim
    refine ⟨htxt, ?_⟩
    have hle : copiedLength input.length ≤ input.length := by
      simp only [copiedLength]
      split
      · exact Nat.div_mul_le_self _ _
      · exact le_rfl
    rw [htxt, ← copiedLength_eq_iff, Option.some.injEq, List.take_eq_self_iff]
    omega

private theorem one_byte_transfers :
    (execute (step (createDuplexPipe standard).1 [7] 65536)
      (fun s a => decide (WritesAll s a ∧ ReadsAll [7] s a))
      (init (createDuplexPipe standard).1 (createDuplexPipe standard).2 none) oneByte).isSome =
      true := by
  decide +kernel

/-- `output_of_run` on a run that copies one byte. -/
theorem output_one_byte :
    ∃ tr s, Run (step (createDuplexPipe standard).1 [7] 65536)
      (init (createDuplexPipe standard).1 (createDuplexPipe standard).2 none) tr s ∧
      s.parent.LeftLoop ∧ s.childTxt = some [7] := by
  obtain ⟨tr, h, hmeet⟩ := exists_run_of_isSome one_byte_transfers
  have hwrites : StepsMeet WritesAll tr := fun x hx => (of_decide_eq_true (hmeet x hx)).1
  have hreads : StepsMeet (ReadsAll [7]) tr := fun x hx => (of_decide_eq_true (hmeet x hx)).2
  obtain ⟨-, hall⟩ := output_of_run standard h (by decide +kernel) hwrites
  exact ⟨tr, _, h, by decide +kernel, (hall hreads).2.mpr (by decide)⟩

end DuplexCopy
