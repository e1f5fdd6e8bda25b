import PosixTasks.FileServer.Sender
import PosixTasks.Lib.Numbers
import PosixTasks.Lib.Transition

/-!
# The transfer of files to a client

A registered client requests one file after the other. `send_file_to_client` writes a header and
the file in chunks; `receive_file` reads the header byte by byte and the file in pieces that have
nothing to do with the chunks.

Files are readable and do not change, writes to the FIFO block until there is room and are whole,
a read returns any positive number of the bytes that are there, and there is no exit signal.

## Main results

* `replies_of_run`: every `receive_file` has returned 0 with the reply of its file, the FIFO is
  empty between two calls, no run is stuck before the last file, and every run is finite.
-/

namespace FileServer

open CString Transition

/-- A file whose size is a `long`. -/
structure ServedFile where
  content : Text
  fits : content.length < 2 ^ 63

/-- `receive_file`, between two reads. -/
inductive Receiver where
  /-- it is not being called -/
  | idle
  /-- reading the header, with `size_header` up to `cur_pos` -/
  | header (got : Text)
  /-- reading the file, with `file_size` and `total_received` -/
  | body (size received : ℕ)
  /-- it has returned, with the size if it has parsed one -/
  | returned (code : ℤ) (size : Option ℕ)
  deriving DecidableEq, Repr

/-- `sscanf(size_header, "SIZE:%zu", &file_size)`. -/
def parseSizeHeader (sizeHeader : Text) : Option ℕ :=
  if sizeMark <+: sizeHeader then
    (scanUnsigned (sizeHeader.drop sizeMark.length)).map fun x => x.1.toNat
  else none

/-- The loop that reads the file, at its condition. -/
def receiveBody (size received : ℕ) : Receiver :=
  if received < size then .body size received else .returned 0 (some size)

/-- The loop that reads the header, with the next byte. -/
def receiveHeader (got : Text) (c : Char) : Receiver :=
  if c = '\n' then
    match parseSizeHeader (ofBuffer got) with
    | some size => receiveBody size 0
    | none => .returned (-1) none
  else if got.length + 1 < headerBytes - 1 then .header (got ++ [c])
  else .returned (-1) none

/-- How a call of `receive_file` has ended. -/
structure Reply where
  code : ℤ
  /-- `file_size` -/
  size : Option ℕ
  /-- The bytes read from the FIFO. -/
  consumed : Text
  deriving DecidableEq, Repr

/-- The client, its tx FIFO, and the threads of the server that send to it. -/
structure Transfer where
  /-- The files still to be requested. -/
  files : List ServedFile
  /-- The file of a `GET` that has no thread yet. -/
  asked : Option ServedFile
  /-- The threads, each with its file. -/
  senders : List (ServedFile × SenderPos)
  /-- The bytes in the tx FIFO. -/
  fifo : Text
  receiver : Receiver
  /-- The bytes that the current call of `receive_file` has read. -/
  consumed : Text
  /-- The calls of `receive_file` that have returned. -/
  replies : List Reply

/-- The client is registered and has read the `ACK`. -/
def Transfer.init (files : List ServedFile) : Transfer :=
  { files, asked := none, senders := [], fifo := [], receiver := .idle, consumed := [],
    replies := [] }

/-- The steps of the client, of the server and of its threads. -/
inductive TransferAction where
  /-- the client sends the next `GET` and calls `receive_file` -/
  | get
  /-- `process_client_command` starts a thread -/
  | start
  /-- a call of thread `k` -/
  | sender (k : ℕ) (a : SenderAction)
  /-- a read of `receive_file` returns `n` bytes -/
  | read (n : ℕ)
  /-- `main` of the client goes on to the next file -/
  | next

/-- What the calls of a thread return where the file is readable and unchanged, writes are whole
and no exit signal arrives. -/
def undisturbed (f : ServedFile) : SenderPos → SenderAction → Bool
  | _, .openFile size => size = f.content.length
  | _, .openFailed => false
  | _, .writeHeader written => written
  | .sending _ sent, .sendChunk data written =>
      data = (f.content.drop sent).take chunkBytes ∧ written
  | _, .sendChunk _ _ => false
  | _, .finish => true
  | _, .stop => false

/-- One step. The tx FIFO has room for `capacity` bytes. -/
def transferStep (capacity : ℕ) (s : Transfer) : TransferAction → Option Transfer
  | .get =>
      match s.receiver, s.files with
      | .idle, f :: files =>
          some { s with files := files, asked := some f, receiver := .header [], consumed := [] }
      | _, _ => none
  | .start =>
      match s.asked with
      | some f => some { s with asked := none, senders := s.senders ++ [(f, .opening)] }
      | none => none
  | .sender k a =>
      match s.senders[k]? with
      | none => none
      | some (f, pos) =>
          if undisturbed f pos a then
            match senderStep pos a with
            | none => none
            | some (pos', bytes) =>
                if s.fifo.length + bytes.length ≤ capacity then
                  some { s with senders := s.senders.set k (f, pos'), fifo := s.fifo ++ bytes }
                else none
          else none
  | .read n =>
      match s.receiver, s.fifo with
      | .header got, c :: fifo =>
          if n = 1 then
            some { s with
              fifo := fifo, receiver := receiveHeader got c, consumed := s.consumed ++ [c] }
          else none
      | .body size received, fifo =>
          if 0 < n ∧ n ≤ fifo.length ∧ n ≤ min chunkBytes (size - received) then
            some { s with
              fifo := fifo.drop n
              receiver := receiveBody size (received + n)
              consumed := s.consumed ++ fifo.take n }
          else none
      | _, _ => none
  | .next =>
      match s.receiver with
      | .returned code size =>
          some { s with
            receiver := .idle
            replies := s.replies ++ [{ code, size, consumed := s.consumed }] }
      | _ => none

/-- What a step can do. -/
theorem transferStep_cases {capacity : ℕ} {s s' : Transfer} {a : TransferAction}
    (h : transferStep capacity s a = some s') :
    (∃ f files, s.receiver = .idle ∧ s.files = f :: files ∧
      s' = { s with files := files, asked := some f, receiver := .header [], consumed := [] }) ∨
    (∃ f, s.asked = some f ∧
      s' = { s with asked := none, senders := s.senders ++ [(f, .opening)] }) ∨
    (∃ k b f pos pos' bytes, s.senders[k]? = some (f, pos) ∧ undisturbed f pos b = true ∧
      senderStep pos b = some (pos', bytes) ∧
      s' = { s with senders := s.senders.set k (f, pos'), fifo := s.fifo ++ bytes }) ∨
    (∃ got c fifo, s.receiver = .header got ∧ s.fifo = c :: fifo ∧
      s' = { s with
        fifo := fifo, receiver := receiveHeader got c, consumed := s.consumed ++ [c] }) ∨
    (∃ n size received, s.receiver = .body size received ∧
      (0 < n ∧ n ≤ s.fifo.length ∧ n ≤ min chunkBytes (size - received)) ∧
      s' = { s with
        fifo := s.fifo.drop n
        receiver := receiveBody size (received + n)
        consumed := s.consumed ++ s.fifo.take n }) ∨
    ∃ code size, s.receiver = .returned code size ∧
      s' = { s with
        receiver := .idle
        replies := s.replies ++ [{ code, size, consumed := s.consumed }] } := by
  cases a with
  | get =>
    simp only [transferStep] at h
    split at h
    next f files hreceiver hfiles =>
      exact Or.inl ⟨f, files, hreceiver, hfiles, (Option.some.inj h).symm⟩
    next => simp at h
  | start =>
    simp only [transferStep] at h
    split at h
    next f hasked => exact Or.inr (Or.inl ⟨f, hasked, (Option.some.inj h).symm⟩)
    next => simp at h
  | sender k b =>
    simp only [transferStep] at h
    split at h
    next => simp at h
    next f pos hk =>
      split at h
      next hb =>
        split at h
        next => simp at h
        next pos' bytes hsend =>
          split at h
          next =>
            refine Or.inr (Or.inr (Or.inl ?_))
            exact ⟨k, b, f, pos, pos', bytes, hk, hb, hsend, (Option.some.inj h).symm⟩
          next => simp at h
      next => simp at h
  | read n =>
    simp only [transferStep] at h
    split at h
    next got c fifo hreceiver hfifo =>
      split at h
      next =>
        refine Or.inr (Or.inr (Or.inr (Or.inl ?_)))
        exact ⟨got, c, fifo, hreceiver, hfifo, (Option.some.inj h).symm⟩
      next => simp at h
    next size received hreceiver =>
      split at h
      next hn =>
        refine Or.inr (Or.inr (Or.inr (Or.inr (Or.inl ?_))))
        exact ⟨n, size, received, hreceiver, hn, (Option.some.inj h).symm⟩
      next => simp at h
    next => simp at h
  | next =>
    simp only [transferStep] at h
    split at h
    next code size hreceiver =>
      refine Or.inr (Or.inr (Or.inr (Or.inr (Or.inr ?_))))
      exact ⟨code, size, hreceiver, (Option.some.inj h).symm⟩
    next => simp at h

/-- The bytes that `send_file_to_client` writes for a file. -/
def replyBytes (f : ServedFile) : Text :=
  sizeHeader f.content.length ++ f.content

/-- The call of `receive_file` that the bytes are for. -/
def completeReply (f : ServedFile) : Reply where
  code := 0
  size := some f.content.length
  consumed := replyBytes f

/-! ## The header -/

theorem sizeHeader_length (f : ServedFile) :
    (sizeHeader f.content.length).length < headerBytes - 1 := by
  have hdigits : (decimal f.content.length).length ≤ 19 :=
    length_decimal_le (by decide) (lt_trans f.fits (by decide))
  simp only [sizeHeader, sizeMark, headerBytes, List.length_append, List.length_cons,
    List.length_nil]
  omega

/-- The header without its newline. -/
def headerLine (f : ServedFile) : Text :=
  sizeMark ++ decimal f.content.length

theorem sizeHeader_eq (f : ServedFile) :
    sizeHeader f.content.length = headerLine f ++ ['\n'] := rfl

theorem headerLine_clean {f : ServedFile} {c : Char} (hc : c ∈ headerLine f) :
    c ≠ '\n' ∧ c ≠ '\x00' := by
  rcases List.mem_append.mp hc with hc | hc
  · simp only [sizeMark, List.mem_cons, List.not_mem_nil, or_false] at hc
    rcases hc with rfl | rfl | rfl | rfl | rfl <;> decide
  · constructor <;> rintro rfl
    · exact not_mem_decimal rfl _ hc
    · exact not_mem_decimal rfl _ hc

/-- The header is parsed to the size of the file. -/
theorem parseSizeHeader_headerLine (f : ServedFile) :
    parseSizeHeader (ofBuffer (headerLine f)) = some f.content.length := by
  have hfits : f.content.length < 2 ^ 64 := lt_trans f.fits (by decide)
  have hmark : sizeMark <+: headerLine f := List.prefix_append _ _
  rw [ofBuffer_of_not_mem fun hmem => (headerLine_clean hmem).2 rfl, parseSizeHeader, if_pos hmark]
  have hend : DigitsEnd [] := by simp [DigitsEnd]
  have hscan := scanUnsigned_decimal hfits hend
  rw [List.append_nil] at hscan
  rw [headerLine, List.drop_left, hscan, Option.map_some]
  congr 1
  exact UInt64.toNat_ofNat_of_lt' hfits

/-- Reading a byte of the header before its newline goes on with the header. -/
theorem receiveHeader_inside {f : ServedFile} {got rest : Text} {c : Char}
    (h : headerLine f = got ++ c :: rest) : receiveHeader got c = .header (got ++ [c]) := by
  have hmem : c ∈ headerLine f := by
    rw [h]
    simp
  have hlen : got.length + 1 < headerBytes - 1 := by
    have := sizeHeader_length f
    rw [sizeHeader_eq, List.length_append, h, List.length_append, List.length_cons] at this
    simp only [List.length_cons] at this
    omega
  rw [receiveHeader, if_neg (headerLine_clean hmem).1, if_pos hlen]

/-- Its newline ends the header. -/
theorem receiveHeader_newline (f : ServedFile) :
    receiveHeader (headerLine f) '\n' = receiveBody f.content.length 0 := by
  rw [receiveHeader, if_pos rfl, parseSizeHeader_headerLine]

/-! ## What sender and receiver agree on -/

/-- The thread has nothing to write any more. -/
def Done : SenderPos → Prop
  | .opening => False
  | .header _ => False
  | .sending size sent => size ≤ sent
  | .ended => True

/-- The bytes that the thread has written when it is at this position. -/
def SenderAt (f : ServedFile) : SenderPos → Text → Prop
  | .opening, written => written = []
  | .header size, written => size = f.content.length ∧ written = []
  | .sending size sent, written =>
      size = f.content.length ∧ sent ≤ f.content.length ∧
        written = sizeHeader f.content.length ++ f.content.take sent
  | .ended, written => written = replyBytes f

/-- The bytes that `receive_file` has read when it is at this position. -/
def ReceiverAt (f : ServedFile) : Receiver → Text → Prop
  | .idle, _ => False
  | .header got, consumed => got = consumed ∧ consumed.length ≤ (headerLine f).length
  | .body size received, consumed =>
      size = f.content.length ∧ received < f.content.length ∧
        consumed.length = (sizeHeader f.content.length).length + received
  | .returned code size, consumed =>
      code = 0 ∧ size = some f.content.length ∧ consumed = replyBytes f

/-- What is written is a part of the reply. -/
theorem SenderAt.isPart {f : ServedFile} {pos : SenderPos} {written : Text}
    (h : SenderAt f pos written) : written <+: replyBytes f := by
  cases pos with
  | opening => exact (show written = [] from h) ▸ List.nil_prefix
  | header size => exact (show written = [] from h.2) ▸ List.nil_prefix
  | sending size sent =>
    obtain ⟨-, -, rfl⟩ := h
    exact (List.prefix_append_right_inj _).mpr (List.take_prefix _ _)
  | ended => exact (show written = replyBytes f from h) ▸ List.prefix_rfl

/-- A thread that has written the whole reply is done. -/
theorem SenderAt.done {f : ServedFile} {pos : SenderPos} (h : SenderAt f pos (replyBytes f)) :
    Done pos := by
  have hne : replyBytes f ≠ [] := by simp [replyBytes, sizeHeader]
  cases pos with
  | opening => exact hne h
  | header size => exact hne h.2
  | sending size sent =>
    obtain ⟨rfl, hle, heq⟩ := h
    have hcontent : f.content = f.content.take sent := List.append_cancel_left heq
    have := congrArg List.length hcontent
    rw [List.length_take] at this
    show f.content.length ≤ sent
    omega
  | ended => trivial

/-- Nothing is left in the FIFO behind a complete reply. -/
theorem SenderAt.eq_nil_of_complete {f : ServedFile} {pos : SenderPos} {consumed fifo : Text}
    (h : SenderAt f pos (consumed ++ fifo)) (hconsumed : consumed = replyBytes f) : fifo = [] := by
  have hle := h.isPart.length_le
  rw [hconsumed, List.length_append] at hle
  exact List.eq_nil_iff_length_eq_zero.mpr (by omega)

/-- A thread that is done only ends. -/
theorem Done.step {pos pos' : SenderPos} {a : SenderAction} {bytes : Text}
    (h : Done pos) (hstep : senderStep pos a = some (pos', bytes)) : Done pos' ∧ bytes = [] := by
  rcases senderStep_cases hstep with ⟨size, rfl, -⟩ | ⟨size, rfl, -⟩ |
    ⟨size, sent, rfl, -, hlt, -⟩ | ⟨rfl, rfl⟩
  · exact h.elim
  · exact h.elim
  · exact absurd hlt (not_lt.mpr h)
  · exact ⟨trivial, rfl⟩

/-- An undisturbed thread writes the reply from its start on. -/
theorem SenderAt.step {f : ServedFile} {pos pos' : SenderPos} {a : SenderAction}
    {bytes written : Text} (h : SenderAt f pos written) (ha : undisturbed f pos a)
    (hstep : senderStep pos a = some (pos', bytes)) : SenderAt f pos' (written ++ bytes) := by
  rcases senderStep_cases hstep with ⟨size, rfl, rfl, rfl, rfl⟩ | ⟨size, rfl, rfl, -, rfl, rfl⟩ |
    ⟨size, sent, rfl, rfl, hlt, -, -, rfl⟩ | ⟨rfl, rfl⟩
  · have hwritten : written = [] := h
    refine ⟨by simpa [undisturbed] using ha, ?_⟩
    rw [hwritten, List.append_nil]
  · obtain ⟨rfl, rfl⟩ := h
    exact ⟨rfl, Nat.zero_le _, by simp⟩
  · obtain ⟨rfl, hle, rfl⟩ := h
    -- `fread` goes on where the chunks before have ended
    have hdata : bytes = (f.content.drop sent).take chunkBytes := by simpa [undisturbed] using ha
    have hlen : bytes.length ≤ f.content.length - sent := by
      rw [hdata, List.length_take, List.length_drop]
      omega
    refine ⟨rfl, by omega, ?_⟩
    rw [List.append_assoc, List.take_add]
    congr 2
    rw [hdata, List.length_take, List.take_eq_take_iff]
    omega
  · rw [List.append_nil]
    -- the thread ends only behind its last chunk
    cases pos with
    | opening => cases a <;> simp [senderStep, undisturbed] at hstep ha
    | header size =>
      have := sizeHeader_length f
      obtain ⟨rfl, -⟩ := h
      cases a <;> simp only [senderStep, undisturbed, reduceCtorEq] at hstep ha
      rw [if_pos ⟨by omega, ha⟩] at hstep
      simp at hstep
    | ended => simp at hstep
    | sending size sent =>
      obtain ⟨rfl, hle, rfl⟩ := h
      show sizeHeader f.content.length ++ f.content.take sent = replyBytes f
      rw [replyBytes, List.append_cancel_left_eq, List.take_eq_self_iff]
      cases a with
      | openFile _ | openFailed | writeHeader _ | stop => simp [senderStep, undisturbed] at hstep ha
      | finish =>
        simp only [senderStep] at hstep
        split at hstep
        next hdone => exact hdone
        next => simp at hstep
      | sendChunk data written =>
        -- there is something left to read, so that the chunk is not empty
        simp only [undisturbed, Bool.decide_and, Bool.and_eq_true, decide_eq_true_eq] at ha
        simp only [senderStep] at hstep
        split at hstep
        next hchunk =>
          have hne : data ≠ [] := by
            rw [ha.1]
            intro hnil
            have := congrArg List.length hnil
            simp only [List.length_take, List.length_drop, chunkBytes, List.length_nil] at this
            omega
          rw [if_pos ⟨hne, ha.2⟩] at hstep
          simp at hstep
        next => simp at hstep

/-- Behind the header the file begins, if it is not empty. -/
theorem receiverAt_newline (f : ServedFile) :
    ReceiverAt f (receiveHeader (headerLine f) '\n') (headerLine f ++ ['\n']) := by
  rw [receiveHeader_newline, receiveBody]
  split
  next hpos => exact ⟨rfl, hpos, by simp [sizeHeader_eq]⟩
  next hzero =>
    have hnil : f.content = [] := List.eq_nil_iff_length_eq_zero.mpr (by omega)
    refine ⟨rfl, rfl, ?_⟩
    rw [replyBytes, sizeHeader_eq, hnil, List.append_nil]

/-- Reading the next byte of the reply as one of its header. -/
theorem ReceiverAt.readHeader {f : ServedFile} {got consumed fifo : Text} {c : Char}
    (h : ReceiverAt f (.header got) consumed) (hfifo : consumed ++ c :: fifo <+: replyBytes f) :
    ReceiverAt f (receiveHeader got c) (consumed ++ [c]) := by
  obtain ⟨rfl, hlen⟩ := h
  obtain ⟨rest, hrest⟩ := hfifo
  rw [replyBytes, sizeHeader_eq, List.append_assoc, List.append_assoc] at hrest
  -- what has been read is a part of the header line
  obtain ⟨mid, hline⟩ : got <+: headerLine f :=
    List.prefix_of_prefix_length_le ⟨_, hrest⟩ ⟨_, rfl⟩ hlen
  rw [← hline, List.append_assoc, List.append_cancel_left_eq] at hrest
  cases mid with
  | nil =>
    obtain rfl : got = headerLine f := by simpa using hline
    obtain ⟨rfl, -⟩ : c = '\n' ∧ _ := by simpa using hrest
    exact receiverAt_newline f
  | cons d mid =>
    obtain ⟨rfl, -⟩ : c = d ∧ _ := by simpa using hrest
    rw [receiveHeader_inside hline.symm]
    refine ⟨rfl, ?_⟩
    rw [← hline]
    simp

/-- Reading the next bytes of the reply as some of the file. -/
theorem ReceiverAt.readBody {f : ServedFile} {size received n : ℕ} {consumed fifo : Text}
    (h : ReceiverAt f (.body size received) consumed) (hfifo : consumed ++ fifo <+: replyBytes f)
    (hn : n ≤ fifo.length) (hsize : n ≤ size - received) :
    ReceiverAt f (receiveBody size (received + n)) (consumed ++ fifo.take n) := by
  obtain ⟨rfl, hlt, hlen⟩ := h
  have hread : (consumed ++ fifo.take n).length
      = (sizeHeader f.content.length).length + (received + n) := by
    rw [List.length_append, List.length_take]
    omega
  rw [receiveBody]
  split
  next hmore => exact ⟨rfl, hmore, hread⟩
  next hall =>
    refine ⟨rfl, rfl, ?_⟩
    -- as many bytes as the reply has
    have hpre : consumed ++ fifo.take n <+: replyBytes f :=
      ((List.prefix_append_right_inj _).mpr (List.take_prefix _ _)).trans hfifo
    apply hpre.eq_of_length
    rw [hread, replyBytes, List.length_append]
    omega

/-! ## A session -/

/-- No thread has anything to write. -/
def AllDone (senders : List (ServedFile × SenderPos)) : Prop :=
  ∀ x ∈ senders, Done x.2

/-- How the call of `receive_file` for the first file of `rest` is going. -/
inductive Stage (s : Transfer) (rest : List ServedFile) : Prop where
  /-- it has not been made -/
  | idle : s.receiver = .idle → s.asked = none → s.files = rest → s.fifo = [] →
      AllDone s.senders → Stage s rest
  /-- its `GET` is on the way -/
  | asked (f : ServedFile) : rest = f :: s.files → s.asked = some f → s.receiver = .header [] →
      s.consumed = [] → s.fifo = [] → AllDone s.senders → Stage s rest
  /-- its thread has been started, and both ends are inside the same reply -/
  | serving (f : ServedFile) (old : List (ServedFile × SenderPos)) (pos : SenderPos) :
      rest = f :: s.files → s.asked = none → s.senders = old ++ [(f, pos)] → AllDone old →
      SenderAt f pos (s.consumed ++ s.fifo) → ReceiverAt f s.receiver s.consumed → Stage s rest

/-- The calls that have returned have read the replies of the first files. -/
structure Session (files : List ServedFile) (s : Transfer) : Prop where
  replies : s.replies = (files.take s.replies.length).map completeReply
  stage : Stage s (files.drop s.replies.length)

theorem Session.init (files : List ServedFile) : Session files (Transfer.init files) where
  replies := rfl
  stage := .idle rfl rfl rfl rfl (by simp [AllDone, Transfer.init])

theorem AllDone.set {senders : List (ServedFile × SenderPos)} (h : AllDone senders) {k : ℕ}
    {f : ServedFile} {pos : SenderPos} (hpos : Done pos) : AllDone (senders.set k (f, pos)) := by
  intro x hx
  rcases List.mem_or_eq_of_mem_set hx with hx | rfl
  · exact h x hx
  · exact hpos

theorem AllDone.snoc {senders : List (ServedFile × SenderPos)} (h : AllDone senders)
    {f : ServedFile} {pos : SenderPos} (hpos : Done pos) : AllDone (senders ++ [(f, pos)]) := by
  intro x hx
  rcases List.mem_append.mp hx with hx | hx
  · exact h x hx
  · rw [List.mem_singleton] at hx
    rw [hx]
    exact hpos

section Step

variable {files : List ServedFile} {s s' : Transfer} {capacity : ℕ}

/-- A step of a thread leaves both ends inside the same reply. -/
theorem Stage.sender {rest : List ServedFile} (h : Stage s rest) {k : ℕ} {a : SenderAction}
    {f : ServedFile} {pos pos' : SenderPos} {bytes : Text} (hk : s.senders[k]? = some (f, pos))
    (ha : undisturbed f pos a) (hstep : senderStep pos a = some (pos', bytes)) :
    Stage { s with senders := s.senders.set k (f, pos'), fifo := s.fifo ++ bytes } rest := by
  have hmem : (f, pos) ∈ s.senders := List.mem_of_getElem? hk
  cases h with
  | idle hreceiver hasked hfiles hfifo hdone =>
    obtain ⟨hdone', rfl⟩ := (hdone _ hmem).step hstep
    exact .idle hreceiver hasked hfiles (by simpa using hfifo) (hdone.set hdone')
  | asked g hrest hasked hreceiver hconsumed hfifo hdone =>
    obtain ⟨hdone', rfl⟩ := (hdone _ hmem).step hstep
    exact .asked g hrest hasked hreceiver hconsumed (by simpa using hfifo) (hdone.set hdone')
  | serving g old posg hrest hasked hsenders hold hsender hreceiver =>
    rw [hsenders] at hk
    by_cases hlt : k < old.length
    · -- a thread of an earlier file
      rw [List.getElem?_append_left hlt] at hk
      obtain ⟨hdone', rfl⟩ := (hold _ (List.mem_of_getElem? hk)).step hstep
      refine .serving g (old.set k (f, pos')) posg hrest hasked ?_ (hold.set hdone') ?_ hreceiver
      · show s.senders.set k (f, pos') = _
        rw [hsenders, List.set_append_left _ _ hlt]
      · simpa using hsender
    · obtain ⟨hklt, hget⟩ := List.getElem?_eq_some_iff.mp hk
      have hlen : k = old.length := by
        rw [List.length_append, List.length_singleton] at hklt
        omega
      subst hlen
      obtain ⟨rfl, rfl⟩ : g = f ∧ posg = pos := by simpa using hk
      refine .serving g old pos' hrest hasked ?_ hold ?_ hreceiver
      · show s.senders.set old.length (g, pos') = _
        rw [hsenders, List.set_append_right _ _ le_rfl, Nat.sub_self]
        rfl
      · show SenderAt g pos' (s.consumed ++ (s.fifo ++ bytes))
        rw [← List.append_assoc]
        exact hsender.step ha hstep

/-- The client has read the whole reply, so that the thread has written it and ends. -/
theorem Session.next (h : Session files s) {code : ℤ} {size : Option ℕ}
    (hreceiver : s.receiver = .returned code size) :
    Session files { s with
      receiver := .idle
      replies := s.replies ++ [{ code, size, consumed := s.consumed }] } := by
  cases h.stage with
  | idle hidle => simp [hreceiver] at hidle
  | asked _ _ _ hheader => simp [hreceiver] at hheader
  | serving f old pos hrest hasked hsenders hold hsender hbusy =>
    rw [hreceiver] at hbusy
    obtain ⟨rfl, rfl, hconsumed⟩ := hbusy
    have hfifo : s.fifo = [] := hsender.eq_nil_of_complete hconsumed
    have hdone : Done pos := by
      rw [hconsumed, hfifo, List.append_nil] at hsender
      exact hsender.done
    -- this was the reply of the next file in the list
    have hlt : s.replies.length < files.length := by
      have := congrArg List.length hrest
      rw [List.length_drop, List.length_cons] at this
      omega
    have hdrop := List.drop_eq_getElem_cons hlt
    rw [hrest, List.cons.injEq] at hdrop
    refine ⟨?_, ?_⟩
    · show s.replies ++ [⟨0, some f.content.length, s.consumed⟩]
        = (files.take (s.replies ++ [_]).length).map completeReply
      rw [List.length_append, List.length_singleton, ← List.take_concat_get' _ _ hlt,
        List.map_append, ← h.replies, ← hdrop.1, hconsumed]
      rfl
    · refine .idle rfl hasked ?_ hfifo ?_
      · show s.files = files.drop (s.replies ++ [_]).length
        rw [List.length_append, List.length_singleton, ← hdrop.2]
      · show AllDone s.senders
        rw [hsenders]
        exact hold.snoc hdone

theorem Session.step (h : Session files s) {a : TransferAction}
    (hstep : transferStep capacity s a = some s') : Session files s' := by
  rcases transferStep_cases hstep with ⟨f, rest, hreceiver, hfiles, rfl⟩ | ⟨f, hasked, rfl⟩ |
    ⟨k, b, f, pos, pos', bytes, hk, hb, hsend, rfl⟩ | ⟨got, c, fifo, hreceiver, hfifo, rfl⟩ |
    ⟨n, size, received, hreceiver, hn, rfl⟩ | ⟨code, size, hreceiver, rfl⟩
  · -- `GET`
    refine ⟨h.replies, ?_⟩
    cases h.stage with
    | idle _ hasked hrest hfifo hdone =>
      exact .asked f (by rw [← hrest, hfiles]) rfl rfl rfl hfifo hdone
    | asked _ _ _ hheader => simp [hreceiver] at hheader
    | serving _ _ _ _ _ _ _ _ hbusy =>
      rw [hreceiver] at hbusy
      exact hbusy.elim
  · -- the server starts a thread
    refine ⟨h.replies, ?_⟩
    cases h.stage with
    | idle _ hnone => simp [hasked] at hnone
    | asked g hrest hsome hreceiver hconsumed hfifo hdone =>
      -- a file that was asked for before its thread has started
      obtain rfl : f = g := by simpa [hasked] using hsome
      refine .serving f s.senders .opening hrest rfl rfl hdone ?_ ?_
      · show s.consumed ++ s.fifo = []
        rw [hconsumed, hfifo]
        rfl
      · show ReceiverAt f s.receiver s.consumed
        rw [hreceiver, hconsumed]
        exact ⟨rfl, Nat.zero_le _⟩
    | serving _ _ _ _ hnone => simp [hasked] at hnone
  · exact ⟨h.replies, h.stage.sender hk hb hsend⟩
  · -- a byte of the header
    refine ⟨h.replies, ?_⟩
    cases h.stage with
    | idle hidle => simp [hreceiver] at hidle
    | asked _ _ _ _ _ hempty => simp [hfifo] at hempty
    | serving f old pos hrest hasked hsenders hold hsender hbusy =>
      rw [hfifo] at hsender
      rw [hreceiver] at hbusy
      refine .serving f old pos hrest hasked hsenders hold ?_ ?_
      · show SenderAt f pos (s.consumed ++ [c] ++ fifo)
        rwa [List.append_assoc, List.singleton_append]
      · exact hbusy.readHeader hsender.isPart
  · -- some of the file
    refine ⟨h.replies, ?_⟩
    cases h.stage with
    | idle hidle => simp [hreceiver] at hidle
    | asked _ _ _ hheader => simp [hreceiver] at hheader
    | serving f old pos hrest hasked hsenders hold hsender hbusy =>
      rw [hreceiver] at hbusy
      refine .serving f old pos hrest hasked hsenders hold ?_ ?_
      · show SenderAt f pos (s.consumed ++ s.fifo.take n ++ s.fifo.drop n)
        rwa [List.append_assoc, List.take_append_drop]
      · exact hbusy.readBody hsender.isPart hn.2.1 (by omega)
  · exact h.next hreceiver

end Step

/-! ## No session is stuck -/

/-- A thread that has not written its whole reply makes another call. -/
theorem SenderAt.progress {f : ServedFile} {pos : SenderPos} {written : Text}
    (h : SenderAt f pos written) (hmore : written ≠ replyBytes f) :
    ∃ a pos' bytes, undisturbed f pos a ∧ senderStep pos a = some (pos', bytes) ∧
      bytes.length ≤ chunkBytes := by
  have hheader := sizeHeader_length f
  cases pos with
  | opening => exact ⟨.openFile f.content.length, _, _, by simp [undisturbed], rfl, Nat.zero_le _⟩
  | header size =>
    obtain ⟨rfl, -⟩ := h
    refine ⟨.writeHeader true, .sending f.content.length 0, sizeHeader f.content.length, rfl,
      if_pos ⟨by omega, rfl⟩, ?_⟩
    simp only [headerBytes, chunkBytes] at hheader ⊢
    omega
  | sending size sent =>
    obtain ⟨rfl, hle, rfl⟩ := h
    have hlt : sent < f.content.length := by
      apply lt_of_le_of_ne hle
      rintro rfl
      rw [List.take_length] at hmore
      exact hmore rfl
    have hlen : ((f.content.drop sent).take chunkBytes).length ≤ chunkBytes :=
      List.length_take_le _ _
    -- with bytes left to send, `fread` returns some
    have hne : (f.content.drop sent).take chunkBytes ≠ [] := by
      intro hnil
      have := congrArg List.length hnil
      simp only [List.length_take, List.length_drop, chunkBytes, List.length_nil] at this
      omega
    have hstep : senderStep (.sending f.content.length sent)
        (.sendChunk ((f.content.drop sent).take chunkBytes) true) =
          some (.sending f.content.length (sent + ((f.content.drop sent).take chunkBytes).length),
            (f.content.drop sent).take chunkBytes) := by
      simp only [senderStep]
      rw [if_pos ⟨hlt, hlen⟩, if_pos ⟨hne, trivial⟩]
    exact ⟨_, _, _, by simp [undisturbed], hstep, hlen⟩
  | ended => exact absurd h hmore

theorem Session.progress {files : List ServedFile} {s : Transfer} {capacity : ℕ}
    (h : Session files s) (hcapacity : chunkBytes ≤ capacity)
    (hmore : s.replies.length < files.length) : ∃ a, (transferStep capacity s a).isSome := by
  cases h.stage with
  | idle hreceiver hasked hfiles hfifo hdone =>
    rw [List.drop_eq_getElem_cons hmore] at hfiles
    exact ⟨.get, by simp only [transferStep, hreceiver, hfiles, Option.isSome_some]⟩
  | asked f hrest hasked => exact ⟨.start, by simp only [transferStep, hasked, Option.isSome_some]⟩
  | serving f old pos hrest hasked hsenders hold hsender hreceiver =>
    -- if there is nothing to read, the thread has something to write
    have hwrite : s.fifo = [] → s.consumed ≠ replyBytes f →
        ∃ a, (transferStep capacity s a).isSome := by
      intro hfifo hne
      rw [hfifo, List.append_nil] at hsender
      obtain ⟨a, pos', bytes, ha, hstep, hlen⟩ := hsender.progress hne
      have hk : s.senders[old.length]? = some (f, pos) := by simp [hsenders]
      refine ⟨.sender old.length a, ?_⟩
      simp only [transferStep, hk, ha, hstep, hfifo, List.length_nil, Nat.zero_add,
        if_pos (hlen.trans hcapacity), if_true, Option.isSome_some]
    cases hr : s.receiver with
    | idle =>
      rw [hr] at hreceiver
      exact hreceiver.elim
    | header got =>
      rw [hr] at hreceiver
      cases hfifo : s.fifo with
      | nil =>
        apply hwrite hfifo
        intro heq
        have := hreceiver.2
        rw [heq, replyBytes, sizeHeader_eq] at this
        simp only [List.length_append, List.length_singleton] at this
        omega
      | cons c fifo =>
        exact ⟨.read 1, by simp only [transferStep, hr, hfifo, if_true, Option.isSome_some]⟩
    | body size received =>
      rw [hr] at hreceiver
      obtain ⟨rfl, hlt, hlen⟩ := hreceiver
      cases hfifo : s.fifo with
      | nil =>
        apply hwrite hfifo
        intro heq
        rw [heq, replyBytes, List.length_append] at hlen
        omega
      | cons c fifo =>
        have hone : 0 < 1 ∧ 1 ≤ (c :: fifo).length ∧
            1 ≤ min chunkBytes (f.content.length - received) := by
          refine ⟨Nat.one_pos, by simp, ?_⟩
          simp only [chunkBytes]
          omega
        exact ⟨.read 1, by simp only [transferStep, hr, hfifo, if_pos hone, Option.isSome_some]⟩
    | returned code size => exact ⟨.next, by simp only [transferStep, hr, Option.isSome_some]⟩

/-! ## Every session ends -/

/-- The steps that a thread and the reads of its bytes can still take. -/
def senderWork (f : ServedFile) : SenderPos → ℕ
  | .opening => (sizeHeader f.content.length).length + 2 * f.content.length + 3
  | .header size => (sizeHeader size).length + 2 * f.content.length + 2
  | .sending _ sent => 2 * (f.content.length - sent) + 1
  | .ended => 0

/-- The steps that a file can take that has not been requested. -/
def fileWork (f : ServedFile) : ℕ :=
  senderWork f .opening + 3

/-- The steps that a session can still take. -/
def transferWork (s : Transfer) : ℕ :=
  (s.files.map fileWork).sum + (s.asked.elim 0 fun f => senderWork f .opening + 1) +
    (s.senders.map fun x => senderWork x.1 x.2).sum + s.fifo.length +
    if s.receiver = .idle then 0 else 1

/-- A call of a thread takes more from its work than it adds to the FIFO. -/
theorem senderWork_step {f : ServedFile} {pos pos' : SenderPos} {a : SenderAction} {bytes : Text}
    (ha : undisturbed f pos a) (h : senderStep pos a = some (pos', bytes)) :
    senderWork f pos' + bytes.length < senderWork f pos := by
  rcases senderStep_cases h with ⟨size, rfl, rfl, rfl, rfl⟩ | ⟨size, rfl, rfl, -, rfl, rfl⟩ |
    ⟨size, sent, rfl, rfl, -, hne, -, rfl⟩ | ⟨rfl, rfl⟩
  · obtain rfl : size = f.content.length := by simpa [undisturbed] using ha
    simp only [senderWork, List.length_nil]
    omega
  · simp only [senderWork]
    omega
  · have hdata : bytes = (f.content.drop sent).take chunkBytes := by simpa [undisturbed] using ha
    have hlen : bytes.length ≤ f.content.length - sent := by
      rw [hdata, List.length_take, List.length_drop]
      omega
    have := List.length_pos_iff.mpr hne
    simp only [senderWork]
    omega
  · cases pos with
    | ended => simp at h
    | opening | header _ | sending _ _ =>
      simp only [senderWork, List.length_nil]
      omega

/-- A byte or more from the header loop leaves the call of `receive_file` going or returned. -/
theorem receiveHeader_ne_idle (got : Text) (c : Char) : receiveHeader got c ≠ .idle := by
  simp only [receiveHeader, receiveBody]
  split
  · split
    · split <;> simp
    · simp
  · split <;> simp

theorem receiveBody_ne_idle (size received : ℕ) : receiveBody size received ≠ .idle := by
  rw [receiveBody]
  split <;> simp

/-- Every step takes work away. -/
theorem transferWork_step {capacity : ℕ} {s s' : Transfer} {a : TransferAction}
    (h : transferStep capacity s a = some s') : transferWork s' < transferWork s := by
  rcases transferStep_cases h with ⟨f, rest, hreceiver, hfiles, rfl⟩ | ⟨f, hasked, rfl⟩ |
    ⟨k, b, f, pos, pos', bytes, hk, hb, hsend, rfl⟩ | ⟨got, c, fifo, hreceiver, hfifo, rfl⟩ |
    ⟨n, size, received, hreceiver, hn, rfl⟩ | ⟨code, size, hreceiver, rfl⟩
  · simp only [transferWork, hreceiver, hfiles, fileWork, Option.elim_some, List.map_cons,
      List.sum_cons, reduceCtorEq, if_false, if_true]
    omega
  · simp only [transferWork, hasked, Option.elim_some, Option.elim_none, List.map_append,
      List.map_cons, List.map_nil, List.sum_append, List.sum_cons, List.sum_nil]
    omega
  · have hless := senderWork_step hb hsend
    have hsum := sum_map_set (fun x : ServedFile × SenderPos => senderWork x.1 x.2) hk (f, pos')
    simp only [transferWork, List.length_append] at hsum ⊢
    omega
  · simp only [transferWork, hreceiver, hfifo, receiveHeader_ne_idle, reduceCtorEq, if_false,
      List.length_cons]
    omega
  · simp only [transferWork, hreceiver, receiveBody_ne_idle, reduceCtorEq, if_false,
      List.length_drop]
    omega
  · simp only [transferWork, hreceiver, reduceCtorEq, if_false, if_true]
    omega

/-- In every run each call of `receive_file` has returned 0 with the size of its file, and has
read exactly the bytes of its reply; between two calls the FIFO is empty. A run that cannot go on
has received all the files, and no run is longer than the work that the files are. -/
theorem replies_of_run {capacity : ℕ} (hcapacity : chunkBytes ≤ capacity) (files : List ServedFile)
    {tr : List (Transfer × TransferAction)} {s : Transfer}
    (h : Run (transferStep capacity) (Transfer.init files) tr s) :
    s.replies = (files.take s.replies.length).map completeReply ∧
      (s.receiver = .idle → s.fifo = []) ∧
      ((∀ a, transferStep capacity s a = none) → s.replies = files.map completeReply) ∧
      tr.length ≤ (files.map fileWork).sum := by
  have hs : Session files s :=
    h.invariant_all (Session.init files) fun _ _ _ ht hstep => ht.step hstep
  refine ⟨hs.replies, ?_, ?_, ?_⟩
  · intro hidle
    cases hs.stage with
    | idle _ _ _ hfifo => exact hfifo
    | asked _ _ _ _ _ hfifo => exact hfifo
    | serving _ _ _ _ _ _ _ _ hbusy =>
      rw [hidle] at hbusy
      exact hbusy.elim
  · intro hstuck
    by_cases hmore : s.replies.length < files.length
    · obtain ⟨a, ha⟩ := hs.progress hcapacity hmore
      rw [hstuck a] at ha
      exact Bool.noConfusion ha
    · rw [hs.replies, List.take_of_length_le (not_lt.mp hmore)]
  · -- every step takes some of the work away
    have hwork := h.length_add_le fun _ _ _ => transferWork_step
    have hinit : transferWork (Transfer.init files) = (files.map fileWork).sum := by
      simp [transferWork, Transfer.init]
    omega

/-- A file of one byte, and an empty one. -/
def smallFiles : List ServedFile :=
  [⟨['x'], by decide⟩, ⟨[], by decide⟩]

/-- The calls in which both are received. -/
def smallSession : List TransferAction :=
  ([.get, .start, .sender 0 (.openFile 1), .sender 0 (.writeHeader true)] : List TransferAction) ++
    List.replicate 7 (TransferAction.read 1) ++
    ([.sender 0 (.sendChunk ['x'] true), .read 1, .next] : List TransferAction) ++
    ([.get, .start, .sender 1 (.openFile 0), .sender 0 .finish, .sender 1 (.writeHeader true)] :
      List TransferAction) ++
    List.replicate 7 (TransferAction.read 1) ++ ([.next] : List TransferAction)

private theorem small_executes :
    (execute (transferStep 65536) (fun _ _ => true) (Transfer.init smallFiles)
      smallSession).isSome = true := by
  decide +kernel

/-- `replies_of_run` for a file of one byte and an empty one. -/
theorem replies_small_files :
    ∃ tr s, Run (transferStep 65536) (Transfer.init smallFiles) tr s ∧ s.replies.length = 2 ∧
      s.replies = (smallFiles.take 2).map completeReply ∧ s.fifo = [] := by
  obtain ⟨tr, h, -⟩ := exists_run_of_isSome small_executes
  have hlength : ((execute (transferStep 65536) (fun _ _ => true) (Transfer.init smallFiles)
      smallSession).get small_executes).replies.length = 2 := by decide +kernel
  obtain ⟨hreplies, hfifo, -, -⟩ := replies_of_run (by decide) smallFiles h
  refine ⟨tr, _, h, hlength, ?_, hfifo (by decide +kernel)⟩
  rw [hlength] at hreplies
  exact hreplies

end FileServer
