import Mathlib.Data.List.Induction
import RowStore.Bytes.Window

/-!
# Values that pass through a window

Bytes, words and signed words are written to a window and read from it in any order. What the
memory holds is told by the written values alone: the bytes of all of them up to and including the
first that does not fit (`Window.sent`), cut at the end of the memory, and behind them what the
memory held before. What a read answers is told by how much was asked for before it
(`Window.asking`) and by the memory as it is at that time.

One invariant says both (`Window.Carries`), since the two positions do not disturb each other. So a
second reader that asks for the same kinds of values from the start gets the values whose writing
succeeded, and no other (`Window.carriesStreams`).

The bytes of a value are those of the number it stands for (`Bytes.littleEndian`), a negative
number being written as what it leaves modulo the power of 256 that its width allows.
-/

set_option autoImplicit false

namespace RowStore

/-- The lowest bytes of a number, least significant first. -/
def Bytes.littleEndian : Nat → Int → Bytes
  | 0, _ => []
  | width + 1, number => UInt8.ofNat (number % 256).toNat :: littleEndian width (number / 256)

/-- What a value is: a byte, a word or a signed word. -/
inductive Scalar.Kind where
  | byte
  | word
  | signed
  deriving DecidableEq

/-- How many bytes a value of this kind takes. -/
def Scalar.Kind.width : Scalar.Kind → Nat
  | .byte => 1
  | .word | .signed => 4

/-- A value that is written to a window or read from it. -/
inductive Scalar where
  | byte (value : UInt8)
  | word (value : UInt32)
  | signed (value : Int32)
  deriving DecidableEq

namespace Scalar

/-- Which kind of value this is. -/
def kind : Scalar → Kind
  | byte _ => .byte
  | word _ => .word
  | signed _ => .signed

/-- How many bytes the value takes. -/
def width (value : Scalar) : Nat := value.kind.width

/-- The number that the value stands for. -/
def toInt : Scalar → Int
  | byte value => value.toNat
  | word value => value.toNat
  | signed value => value.toInt

/-- The value's bytes, least significant first. -/
def bytes (value : Scalar) : Bytes := Bytes.littleEndian value.width value.toInt

theorem bytes_byte (value : UInt8) : (byte value).bytes = [value] := by
  have small := value.toNat_lt
  refine congrArg (· :: []) (UInt8.toNat_inj.mp ?_)
  rw [UInt8.toNat_ofNat', toInt]
  omega

theorem bytes_word (value : UInt32) : (word value).bytes = Word.toBytes value := by
  simp only [bytes, width, kind, Kind.width, Bytes.littleEndian, toInt, Word.toBytes,
    List.cons.injEq, and_true]
  refine ⟨?_, ?_, ?_, ?_⟩ <;>
    · apply UInt8.toNat_inj.mp
      simp only [UInt8.toNat_ofNat']
      omega

/-- A negative word has the bytes of its two's complement bit pattern. -/
theorem bytes_signed (value : Int32) : (signed value).bytes = Word.signedToBytes value := by
  have pattern : value.toInt = value.toUInt32.toBitVec.toInt := rfl
  have small := value.toUInt32.toNat_lt
  simp only [bytes, width, kind, Kind.width, Bytes.littleEndian, toInt, Word.signedToBytes,
    Word.toBytes, List.cons.injEq, and_true, pattern, BitVec.toInt_eq_toNat_cond,
    UInt32.toNat_toBitVec]
  refine ⟨?_, ?_, ?_, ?_⟩ <;>
    · apply UInt8.toNat_inj.mp
      simp only [UInt8.toNat_ofNat']
      omega

theorem length_bytes (value : Scalar) : value.bytes.length = value.width := by
  cases value <;> rfl

/-- A value is told by its kind and its bytes. -/
theorem eq_of_bytes_eq {left right : Scalar} (kind : left.kind = right.kind)
    (same : left.bytes = right.bytes) : left = right := by
  have words : ∀ {left right : UInt32}, Word.toBytes left = Word.toBytes right → left = right := by
    intro left right same
    simp only [Word.toBytes, List.cons.injEq, and_true] at same
    obtain ⟨first, second, third, fourth⟩ := same
    rw [← Word.ofBytes_toBytes left, first, second, third, fourth, Word.ofBytes_toBytes]
  cases left <;> cases right <;> cases kind
  case byte left right =>
    rw [bytes_byte, bytes_byte] at same
    rw [List.singleton_inj.mp same]
  case word left right =>
    rw [bytes_word, bytes_word] at same
    rw [words same]
  case signed left right =>
    rw [bytes_signed, bytes_signed] at same
    rw [← Int32.toInt32_toUInt32 left, words same, Int32.toInt32_toUInt32]

end Scalar

namespace Window

/-! ## Steps over a window -/

/-- A window over the memory that nothing has been written to or read from. -/
def opened (memory : Bytes) : Window := { memory }

/-- Write a value; the answer says whether all of its bytes were stored. -/
def writeScalar (window : Window) : Scalar → Bool × Window
  | .byte value => window.writeByte value
  | .word value => window.writeWord value
  | .signed value => window.writeSigned value

/-- Read a value of the given kind. -/
def readScalar (window : Window) : Scalar.Kind → Option Scalar × Window
  | .byte => window.readByte.map (Option.map .byte) id
  | .word => window.readWord.map (Option.map .word) id
  | .signed => window.readSigned.map (Option.map .signed) id

/-- One use of a window: a value is written, or a value of a target's kind is read into it. -/
inductive Step where
  | write (value : Scalar)
  | read (target : Scalar)
  deriving DecidableEq

/-- What comes of a step: whether the value was stored, or whether a value was read and what the
target holds from then on. -/
inductive Answer where
  | wrote (value : Scalar) (succeeded : Bool)
  | got (target : Scalar) (succeeded : Bool)
  deriving DecidableEq

/-- Take one step. A read that fails leaves its target as it is. -/
def perform (window : Window) : Step → Answer × Window
  | .write value =>
    let (succeeded, after) := window.writeScalar value
    (.wrote value succeeded, after)
  | .read target =>
    match window.readScalar target.kind with
    | (some value, after) => (.got value true, after)
    | (none, after) => (.got target false, after)

/-- What the steps answer, one after the other. -/
def answers : Window → List Step → List Answer
  | _, [] => []
  | window, step :: steps => (window.perform step).1 :: (window.perform step).2.answers steps

/-- The window after the steps. -/
def after : Window → List Step → Window
  | window, [] => window
  | window, step :: steps => (window.perform step).2.after steps

/-- The value that a step writes. -/
def Step.value? : Step → Option Scalar
  | .write value => some value
  | .read _ => none

/-- The value whose writing succeeded. -/
def Answer.stored? : Answer → Option Scalar
  | .wrote value true => some value
  | _ => none

/-- The value that was read. -/
def Answer.got? : Answer → Option Scalar
  | .got value true => some value
  | _ => none

/-- A value could not be stored. -/
def Answer.writeFailed : Answer → Bool
  | .wrote _ false => true
  | _ => false

/-- No value could be read. -/
def Answer.readFailed : Answer → Bool
  | .got _ false => true
  | _ => false

variable {window : Window}

theorem writeScalar_eq (window : Window) (value : Scalar) :
    window.writeScalar value = window.write value.bytes := by
  cases value with
  | byte value => rw [Scalar.bytes_byte]; rfl
  | word value => rw [Scalar.bytes_word]; rfl
  | signed value => rw [Scalar.bytes_signed]; rfl

/-- As long as no write has failed, a write stores what fits behind what was written before. -/
theorem perform_write_of_canWrite (canWrite : window.canWrite = true) (value : Scalar) :
    window.perform (.write value) =
      (.wrote value (decide (value.width ≤ window.memory.length - window.written)),
        { window with
          memory := window.memory.take window.written ++
            value.bytes.take (window.memory.length - window.written) ++
            window.memory.drop (window.written + value.width)
          written := window.written + min value.width (window.memory.length - window.written)
          canWrite := decide (value.width ≤ window.memory.length - window.written) }) := by
  have fits : ∀ room : Nat, (min room value.width == value.width) = decide (value.width ≤ room) :=
    fun room => by rw [Bool.eq_iff_iff, beq_iff_eq, decide_eq_true_iff]; omega
  have rest : window.memory.drop
      (window.written + min (window.memory.length - window.written) value.width) =
        window.memory.drop (window.written + value.width) := by
    rcases Nat.le_total value.width (window.memory.length - window.written) with inside | beyond
    · rw [Nat.min_eq_right inside]
    · rw [List.drop_eq_nil_of_le (by omega), List.drop_eq_nil_of_le (by omega)]
  rw [perform, writeScalar_eq, write, if_pos canWrite]
  simp only [List.length_take, Scalar.length_bytes, fits, rest, Nat.min_comm value.width]

/-- After that it stores nothing. -/
theorem perform_write_of_not (closed : window.canWrite = false) (value : Scalar) :
    window.perform (.write value) = (.wrote value false, window) := by
  rw [perform, writeScalar_eq, write, closed]
  rfl

theorem exists_four_of_length {bytes : Bytes} (size : bytes.length = 4) :
    ∃ first second third fourth, bytes = [first, second, third, fourth] :=
  match bytes, size with
  | [first, second, third, fourth], _ => ⟨first, second, third, fourth, rfl⟩

/-- With enough bytes left a read finds the value whose bytes stand at the reading position. -/
theorem readScalar_of_le {kind : Scalar.Kind} (canRead : window.canRead = true)
    (enough : window.readPosition + kind.width ≤ window.memory.length) :
    ∃ value : Scalar, value.kind = kind ∧
      value.bytes = (window.memory.drop window.readPosition).take kind.width ∧
      window.readScalar kind =
        (some value, { window with readPosition := window.readPosition + kind.width }) := by
  have found : window.read kind.width =
      (some ((window.memory.drop window.readPosition).take kind.width),
        { window with readPosition := window.readPosition + kind.width }) := by
    rw [read, canRead, Bool.true_and, if_pos (decide_eq_true enough)]
  have size : ((window.memory.drop window.readPosition).take kind.width).length = kind.width := by
    rw [List.length_take, List.length_drop]
    omega
  generalize (window.memory.drop window.readPosition).take kind.width = bytes at found size
  cases kind with
  | byte =>
    obtain ⟨value, rfl⟩ := List.length_eq_one_iff.mp size
    exact ⟨.byte value, rfl, Scalar.bytes_byte value, by
      rw [readScalar, readByte, show window.read 1 = _ from found]; rfl⟩
  | word =>
    obtain ⟨first, second, third, fourth, rfl⟩ := exists_four_of_length size
    refine ⟨.word (Word.ofBytes first second third fourth), rfl, ?_, ?_⟩
    · rw [Scalar.bytes_word, Word.toBytes_ofBytes]
    · rw [readScalar, readWord, show window.read 4 = _ from found]; rfl
  | signed =>
    obtain ⟨first, second, third, fourth, rfl⟩ := exists_four_of_length size
    refine ⟨.signed (Word.ofBytes first second third fourth).toInt32, rfl, ?_, ?_⟩
    · rw [Scalar.bytes_signed, Word.signedToBytes, UInt32.toUInt32_toInt32, Word.toBytes_ofBytes]
    · rw [readScalar, readSigned, readWord, show window.read 4 = _ from found]; rfl

/-- Otherwise it finds nothing, and no later read finds anything. -/
theorem readScalar_of_not {kind : Scalar.Kind}
    (short : ¬(window.canRead = true ∧
      window.readPosition + kind.width ≤ window.memory.length)) :
    window.readScalar kind = (none, { window with canRead := false }) := by
  have missing : window.read kind.width = (none, { window with canRead := false }) := by
    rw [read, if_neg (by simpa using short)]
  cases kind with
  | byte => rw [readScalar, readByte, show window.read 1 = _ from missing]; rfl
  | word => rw [readScalar, readWord, show window.read 4 = _ from missing]; rfl
  | signed => rw [readScalar, readSigned, readWord, show window.read 4 = _ from missing]; rfl

/-- With enough bytes left the target takes the value whose bytes stand at the reading position. -/
theorem perform_read_of_le {target : Scalar} (canRead : window.canRead = true)
    (enough : window.readPosition + target.width ≤ window.memory.length) :
    ∃ value : Scalar, value.kind = target.kind ∧
      value.bytes = (window.memory.drop window.readPosition).take target.width ∧
      window.perform (.read target) =
        (.got value true, { window with readPosition := window.readPosition + target.width }) := by
  obtain ⟨value, kind, bytes, found⟩ := readScalar_of_le canRead enough
  exact ⟨value, kind, bytes, by rw [perform, found]; rfl⟩

/-- Otherwise it keeps what it holds. -/
theorem perform_read_of_not {target : Scalar}
    (short : ¬(window.canRead = true ∧
      window.readPosition + target.width ≤ window.memory.length)) :
    window.perform (.read target) = (.got target false, { window with canRead := false }) := by
  rw [perform, readScalar_of_not short]

theorem exists_got (window : Window) (target : Scalar) :
    ∃ held succeeded, (window.perform (.read target)).1 = .got held succeeded := by
  rw [perform]
  split <;> exact ⟨_, _, rfl⟩

/-! ## Failure stays -/

theorem after_concat (window : Window) (steps : List Step) (step : Step) :
    window.after (steps ++ [step]) = ((window.after steps).perform step).2 := by
  induction steps generalizing window with
  | nil => rfl
  | cons first steps ih => exact ih _

theorem answers_concat (window : Window) (steps : List Step) (step : Step) :
    window.answers (steps ++ [step]) =
      window.answers steps ++ [((window.after steps).perform step).1] := by
  induction steps generalizing window with
  | nil => rfl
  | cons first steps ih => exact congrArg (_ :: ·) (ih _)

/-- A step that fails closes its side of the window, and no other step opens or closes anything. -/
theorem open_perform (window : Window) (step : Step) :
    (window.perform step).2.canWrite =
        (window.canWrite && !(window.perform step).1.writeFailed) ∧
      (window.perform step).2.canRead =
        (window.canRead && !(window.perform step).1.readFailed) := by
  cases step with
  | write value =>
    cases canWrite : window.canWrite with
    | false =>
      rw [perform_write_of_not canWrite, canWrite]
      exact ⟨rfl, (Bool.and_true _).symm⟩
    | true =>
      rw [perform_write_of_canWrite canWrite]
      refine ⟨?_, (Bool.and_true _).symm⟩
      dsimp only
      cases decide (value.width ≤ window.memory.length - window.written) <;> rfl
  | read target =>
    by_cases enough : window.canRead = true ∧
        window.readPosition + target.width ≤ window.memory.length
    · obtain ⟨value, -, -, performed⟩ := perform_read_of_le enough.1 enough.2
      rw [performed]
      exact ⟨(Bool.and_true _).symm, (Bool.and_true _).symm⟩
    · rw [perform_read_of_not enough]
      exact ⟨(Bool.and_true _).symm, (Bool.and_false _).symm⟩

/-- So each side is open as long as none of its steps has failed. -/
theorem open_after (window : Window) (steps : List Step) :
    (window.after steps).canWrite =
        (window.canWrite && !(window.answers steps).any Answer.writeFailed) ∧
      (window.after steps).canRead =
        (window.canRead && !(window.answers steps).any Answer.readFailed) := by
  induction steps generalizing window with
  | nil => exact ⟨(Bool.and_true _).symm, (Bool.and_true _).symm⟩
  | cons step steps ih =>
    obtain ⟨writes, reads⟩ := ih (window.perform step).2
    obtain ⟨write, read⟩ := open_perform window step
    rw [after, answers, writes, reads, write, read]
    simp only [List.any_cons, Bool.not_or, Bool.and_assoc, and_self]

/-! ## What was sent -/

/-- The bytes of the values that are written into so much room, up to and including the first value
that does not fit. -/
def sent : Nat → List Scalar → Bytes
  | _, [] => []
  | room, value :: values =>
    if value.width ≤ room then value.bytes ++ sent (room - value.width) values else value.bytes

/-- The values before the first that does not fit. -/
def fitting : Nat → List Scalar → List Scalar
  | _, [] => []
  | room, value :: values =>
    if value.width ≤ room then value :: fitting (room - value.width) values else []

/-- One more value is sent unless the room was exceeded before. -/
theorem sent_concat (room : Nat) (values : List Scalar) (value : Scalar) :
    sent room (values ++ [value]) =
      if (sent room values).length ≤ room then sent room values ++ value.bytes
      else sent room values := by
  induction values generalizing room with
  | nil =>
    rw [List.nil_append, sent, sent, sent, List.append_nil, ite_self,
      List.length_nil, if_pos (Nat.zero_le room), List.nil_append]
  | cons first values ih =>
    rw [List.cons_append, sent, sent]
    by_cases fits : first.width ≤ room
    · have counted : (first.bytes ++ sent (room - first.width) values).length ≤ room ↔
          (sent (room - first.width) values).length ≤ room - first.width := by
        rw [List.length_append, first.length_bytes]
        omega
      simp only [if_pos fits, ih, counted, List.append_assoc, apply_ite (first.bytes ++ ·)]
    · simp only [if_neg fits, first.length_bytes]

/-- One more value fits if it ends inside the room. -/
theorem fitting_concat (room : Nat) (values : List Scalar) (value : Scalar) :
    fitting room (values ++ [value]) =
      if (sent room values).length + value.width ≤ room then fitting room values ++ [value]
      else fitting room values := by
  induction values generalizing room with
  | nil =>
    rw [List.nil_append, fitting, fitting, fitting, sent, List.length_nil, Nat.zero_add,
      List.nil_append]
  | cons first values ih =>
    rw [List.cons_append, fitting, fitting, sent]
    by_cases fits : first.width ≤ room
    · have counted : (first.bytes ++ sent (room - first.width) values).length + value.width ≤ room ↔
          (sent (room - first.width) values).length + value.width ≤ room - first.width := by
        rw [List.length_append, first.length_bytes]
        omega
      simp only [if_pos fits, ih, counted, List.cons_append, apply_ite (first :: ·)]
    · have beyond : ¬first.bytes.length + value.width ≤ room := by
        rw [first.length_bytes]
        omega
      simp only [if_neg fits, if_neg beyond]

/-! ## What a window carries -/

/-- The window's memory was `initial` at first; these bytes have been sent to it and so many have
been asked of it. -/
structure Carries (initial bytes : Bytes) (asked : Nat) (window : Window) : Prop where
  memory_eq : window.memory = bytes.take initial.length ++ initial.drop bytes.length
  written_eq : window.written = min bytes.length initial.length
  canWrite_eq : window.canWrite = decide (bytes.length ≤ initial.length)
  readPosition_eq : asked ≤ initial.length → window.readPosition = asked
  canRead_eq : window.canRead = decide (asked ≤ initial.length)

variable {initial bytes : Bytes} {asked : Nat}

theorem Carries.length_memory (carries : Carries initial bytes asked window) :
    window.memory.length = initial.length := by
  rw [carries.memory_eq, List.length_append, List.length_take, List.length_drop]
  omega

/-- A write sends the value's bytes unless the end has been passed before, and it succeeds if they
end inside the memory. -/
theorem Carries.perform_write (carries : Carries initial bytes asked window) (value : Scalar) :
    (window.perform (.write value)).1 =
        .wrote value (decide (bytes.length + value.width ≤ initial.length)) ∧
      Carries initial (if bytes.length ≤ initial.length then bytes ++ value.bytes else bytes) asked
        (window.perform (.write value)).2 := by
  by_cases room : bytes.length ≤ initial.length
  · have canWrite : window.canWrite = true := by rw [carries.canWrite_eq, decide_eq_true room]
    have position : window.written = bytes.length := by
      rw [carries.written_eq, Nat.min_eq_left room]
    have left : value.width ≤ initial.length - bytes.length ↔
        bytes.length + value.width ≤ initial.length := by omega
    have before : window.memory = bytes ++ initial.drop bytes.length := by
      rw [carries.memory_eq, List.take_of_length_le room]
    rw [perform_write_of_canWrite canWrite, if_pos room, carries.length_memory, position]
    refine ⟨by simp only [left], ?_, ?_, ?_, carries.readPosition_eq, carries.canRead_eq⟩
    · calc window.memory.take bytes.length ++ value.bytes.take (initial.length - bytes.length) ++
            window.memory.drop (bytes.length + value.width)
        _ = bytes ++ value.bytes.take (initial.length - bytes.length) ++
              initial.drop (bytes.length + value.width) := by
          rw [before, List.take_left, List.drop_length_add_append, List.drop_drop]
        _ = (bytes ++ value.bytes).take initial.length ++
              initial.drop (bytes ++ value.bytes).length := by
          rw [List.take_append, List.take_of_length_le room, List.length_append,
            value.length_bytes]
    · rw [List.length_append, value.length_bytes]
      dsimp only
      omega
    · simp only [left, List.length_append, value.length_bytes]
  · have closed : window.canWrite = false := by rw [carries.canWrite_eq, decide_eq_false room]
    have beyond : ¬bytes.length + value.width ≤ initial.length := by omega
    rw [perform_write_of_not closed, if_neg room, decide_eq_false beyond]
    exact ⟨rfl, carries⟩

/-- A read succeeds if it and all reads before it end inside the memory, and it asks for no more
than its target takes. -/
theorem Carries.perform_read (carries : Carries initial bytes asked window) (target : Scalar) :
    Carries initial bytes (asked + target.width) (window.perform (.read target)).2 ∧
      if asked + target.width ≤ initial.length then
        ∃ value : Scalar, value.kind = target.kind ∧
          value.bytes = (window.memory.drop asked).take target.width ∧
          (window.perform (.read target)).1 = .got value true
      else (window.perform (.read target)).1 = .got target false := by
  by_cases enough : asked + target.width ≤ initial.length
  · have inside : asked ≤ initial.length := by omega
    have canRead : window.canRead = true := by rw [carries.canRead_eq, decide_eq_true inside]
    have position := carries.readPosition_eq inside
    obtain ⟨value, kind, found, performed⟩ := perform_read_of_le canRead
      (by rwa [position, carries.length_memory])
    rw [if_pos enough, performed]
    rw [position] at found
    refine ⟨⟨carries.memory_eq, carries.written_eq, carries.canWrite_eq, fun _ => ?_, ?_⟩,
      value, kind, found, rfl⟩
    · rw [position]
    · rw [canRead, decide_eq_true enough]
  · have short : ¬(window.canRead = true ∧
        window.readPosition + target.width ≤ window.memory.length) := by
      rintro ⟨canRead, fits⟩
      have inside : asked ≤ initial.length := by
        simpa [carries.canRead_eq] using canRead
      rw [carries.readPosition_eq inside, carries.length_memory] at fits
      exact enough fits
    rw [if_neg enough, perform_read_of_not short]
    exact ⟨⟨carries.memory_eq, carries.written_eq, carries.canWrite_eq,
      fun inside => absurd inside enough, (decide_eq_false enough).symm⟩, rfl⟩

/-- How many bytes the steps ask for. -/
def asking : List Step → Nat
  | [] => 0
  | .write _ :: steps => asking steps
  | .read target :: steps => target.width + asking steps

theorem asking_append (front back : List Step) :
    asking (front ++ back) = asking front + asking back := by
  induction front with
  | nil => exact (Nat.zero_add _).symm
  | cons step front ih =>
    cases step with
    | write value => exact ih
    | read target => rw [List.cons_append, asking, asking, ih, Nat.add_assoc]

/-- After any steps a window that was new carries what they write and has been asked for what they
read. -/
theorem carries_after (memory : Bytes) (steps : List Step) :
    Carries memory (sent memory.length (steps.filterMap Step.value?)) (asking steps)
      ((opened memory).after steps) := by
  -- from the end: the window before the last step is again one that was new at first
  induction steps using List.reverseRecOn with
  | nil =>
    refine ⟨?_, (Nat.zero_min _).symm, (decide_eq_true (Nat.zero_le _)).symm, fun _ => rfl,
      (decide_eq_true (Nat.zero_le _)).symm⟩
    rw [List.filterMap_nil, sent, List.take_nil]
    rfl
  | append_singleton steps step ih =>
    rw [after_concat, List.filterMap_append, asking_append]
    cases step with
    | write value =>
      rw [show List.filterMap Step.value? [.write value] = [value] from rfl, sent_concat]
      exact (ih.perform_write value).2
    | read target =>
      rw [show List.filterMap Step.value? [.read target] = [] from rfl, List.append_nil]
      exact (ih.perform_read target).1

/-- No write has failed as long as what was sent ends inside the memory. -/
theorem writeFailed_eq_false_iff (memory : Bytes) (steps : List Step) :
    ((opened memory).answers steps).any Answer.writeFailed = false ↔
      (sent memory.length (steps.filterMap Step.value?)).length ≤ memory.length := by
  have canWrite := (open_after (opened memory) steps).1
  rw [(carries_after memory steps).canWrite_eq, show (opened memory).canWrite = true from rfl,
    Bool.true_and] at canWrite
  rw [← decide_eq_true_iff (p := _ ≤ memory.length), canWrite, Bool.not_eq_true']

/-- No read has failed as long as what was asked for ends inside the memory. -/
theorem readFailed_eq_false_iff (memory : Bytes) (steps : List Step) :
    ((opened memory).answers steps).any Answer.readFailed = false ↔
      asking steps ≤ memory.length := by
  have canRead := (open_after (opened memory) steps).2
  rw [(carries_after memory steps).canRead_eq, show (opened memory).canRead = true from rfl,
    Bool.true_and] at canRead
  rw [← decide_eq_true_iff (p := _ ≤ memory.length), canRead, Bool.not_eq_true']

/-! ## Reading back -/

/-- The values that are stored are those that fit. -/
theorem stored_eq_fitting (memory : Bytes) (steps : List Step) :
    ((opened memory).answers steps).filterMap Answer.stored? =
      fitting memory.length (steps.filterMap Step.value?) := by
  induction steps using List.reverseRecOn with
  | nil => rfl
  | append_singleton steps step ih =>
    have carries := carries_after memory steps
    rw [answers_concat, List.filterMap_append, List.filterMap_append, ih]
    cases step with
    | write value =>
      rw [show List.filterMap Step.value? [.write value] = [value] from rfl, fitting_concat,
        (carries.perform_write value).1]
      by_cases fits : (sent memory.length (steps.filterMap Step.value?)).length + value.width ≤
          memory.length
      · rw [if_pos fits, decide_eq_true fits]
        rfl
      · rw [if_neg fits, decide_eq_false fits]
        exact List.append_nil _
    | read target =>
      have nothing : (((opened memory).after steps).perform (.read target)).1.stored? = none := by
        obtain ⟨held, succeeded, answer⟩ := exists_got ((opened memory).after steps) target
        rw [answer]
        rfl
      rw [show List.filterMap Step.value? [.read target] = [] from rfl, List.append_nil,
        List.filterMap_cons_none nothing]
      exact List.append_nil _

/-- A reader that has failed gets nothing more. -/
theorem got_of_closed {reader : Window} (closed : reader.canRead = false) (targets : List Scalar) :
    (reader.answers (targets.map .read)).filterMap Answer.got? = [] := by
  induction targets with
  | nil => rfl
  | cons target targets ih =>
    have short : ¬(reader.canRead = true ∧
        reader.readPosition + target.width ≤ reader.memory.length) := by simp [closed]
    have stays : { reader with canRead := false } = reader := by rw [← closed]
    rw [List.map_cons, answers, perform_read_of_not short, stays,
      List.filterMap_cons_none rfl, ih]

/-- A reader that stands where values were sent, and asks for values of their kinds, gets those
that fit. -/
theorem got_eq_fitting {reader : Window} {room : Nat} {targets values : List Scalar} {rest : Bytes}
    (canRead : reader.canRead = true)
    (length : reader.readPosition + room = reader.memory.length)
    (stands : reader.memory.drop reader.readPosition = (sent room values).take room ++ rest)
    (kinds : targets.map Scalar.kind = values.map Scalar.kind) :
    (reader.answers (targets.map .read)).filterMap Answer.got? = fitting room values := by
  -- reading a value leaves a reader that stands where the other values were sent
  induction values generalizing reader room targets with
  | nil =>
    rw [List.map_eq_nil_iff.mp kinds]
    rfl
  | cons value values ih =>
    obtain ⟨target, targets, rfl, kind, kinds⟩ := List.map_eq_cons_iff.mp kinds
    have width : target.width = value.width := congrArg Scalar.Kind.width kind
    rw [List.map_cons, answers, fitting]
    by_cases fits : value.width ≤ room
    · have enough : reader.readPosition + target.width ≤ reader.memory.length := by omega
      obtain ⟨found, foundKind, foundBytes, performed⟩ := perform_read_of_le canRead enough
      rw [sent, if_pos fits, List.take_append, value.length_bytes,
        List.take_of_length_le (by rwa [value.length_bytes]), List.append_assoc] at stands
      have same : found = value := by
        apply Scalar.eq_of_bytes_eq (foundKind.trans kind)
        rw [foundBytes, stands, width, ← value.length_bytes, List.take_left]
      rw [performed, if_pos fits, same]
      refine congrArg (value :: ·) (ih canRead ?_ ?_ kinds)
      · dsimp only
        omega
      · rw [← List.drop_drop, stands, width, ← value.length_bytes, List.drop_left]
    · have short : ¬(reader.canRead = true ∧
          reader.readPosition + target.width ≤ reader.memory.length) := by omega
      rw [perform_read_of_not short, if_neg fits, List.filterMap_cons_none rfl]
      exact got_of_closed rfl targets

/-- Everything a new window over the memory carries, does next and can give back once the steps have
been taken.

The memory holds what was sent, cut at its end, and behind it what it held at first. What was
written is counted up to the end. A next write succeeds when no write before it has failed and its
bytes fit; once a write has failed, the next one fails and changes nothing. A next read succeeds
when no read before it has failed and enough bytes are left, and its target then holds the value
whose bytes the memory has there now; otherwise it fails, and the target holds what it held.

A reader that starts at the front of this memory and asks for the kinds of all values that were
written gets the values whose writing succeeded (`read_back`). -/
structure CarriesStreams (memory : Bytes) (steps : List Step) : Prop where
  memory_after : ((opened memory).after steps).memory =
    (sent memory.length (steps.filterMap Step.value?)).take memory.length ++
      memory.drop (sent memory.length (steps.filterMap Step.value?)).length
  written_after : ((opened memory).after steps).written =
    min (sent memory.length (steps.filterMap Step.value?)).length memory.length
  write_succeeds : ∀ value : Scalar,
    (((opened memory).after steps).perform (.write value)).1 = .wrote value true ↔
      ((opened memory).answers steps).any Answer.writeFailed = false ∧
        ((opened memory).after steps).written + value.width ≤ memory.length
  write_fails : ∀ value : Scalar,
    ((opened memory).answers steps).any Answer.writeFailed = true →
      ((opened memory).after steps).perform (.write value) =
        (.wrote value false, (opened memory).after steps)
  read_succeeds : ∀ target : Scalar,
    ((opened memory).answers steps).any Answer.readFailed = false →
    asking steps + target.width ≤ memory.length →
      ∃ value : Scalar, value.kind = target.kind ∧
        value.bytes =
          (((opened memory).after steps).memory.drop (asking steps)).take target.width ∧
        (((opened memory).after steps).perform (.read target)).1 = .got value true
  read_fails : ∀ target : Scalar,
    ¬(((opened memory).answers steps).any Answer.readFailed = false ∧
      asking steps + target.width ≤ memory.length) →
      (((opened memory).after steps).perform (.read target)).1 = .got target false
  read_back : ∀ (reader : Window) (targets : List Scalar),
    reader.memory = ((opened memory).after steps).memory →
    reader.readPosition = 0 → reader.canRead = true →
    targets.map Scalar.kind = (steps.filterMap Step.value?).map Scalar.kind →
      (reader.answers (targets.map .read)).filterMap Answer.got? =
        ((opened memory).answers steps).filterMap Answer.stored?

/-- **What a window holds, answers and gives back is told by the values that were written and by how
much was read, however writing and reading alternate.** -/
theorem carriesStreams (memory : Bytes) (steps : List Step) : CarriesStreams memory steps where
  memory_after := (carries_after memory steps).memory_eq
  written_after := (carries_after memory steps).written_eq
  write_succeeds := by
    intro value
    have carries := carries_after memory steps
    rw [(carries.perform_write value).1, writeFailed_eq_false_iff, carries.written_eq]
    simp only [Answer.wrote.injEq, true_and, decide_eq_true_iff]
    omega
  write_fails := by
    intro value failed
    have closed : ((opened memory).after steps).canWrite = false := by
      rw [(open_after _ _).1, failed]
      exact Bool.and_false _
    exact perform_write_of_not closed value
  read_succeeds := by
    intro target _ enough
    have answer := ((carries_after memory steps).perform_read target).2
    rwa [if_pos enough] at answer
  read_fails := by
    intro target short
    have answer := ((carries_after memory steps).perform_read target).2
    rw [readFailed_eq_false_iff] at short
    rwa [if_neg (by omega)] at answer
  read_back := by
    intro reader targets sameMemory front canRead kinds
    have carries := carries_after memory steps
    have room : reader.readPosition + memory.length = reader.memory.length := by
      rw [front, sameMemory, carries.length_memory, Nat.zero_add]
    have stands : reader.memory.drop reader.readPosition =
        (sent memory.length (steps.filterMap Step.value?)).take memory.length ++
          memory.drop (sent memory.length (steps.filterMap Step.value?)).length := by
      rw [front, sameMemory, List.drop_zero, carries.memory_eq]
    rw [stored_eq_fitting]
    exact got_eq_fitting canRead room stands kinds

example : (opened [0, 0, 0, 0, 0, 0]).answers
      [.write (.signed (-2)), .read (.word 7), .write (.word 5), .write (.byte 1), .read (.byte 9),
        .read (.word 9)] =
    [.wrote (.signed (-2)) true, .got (.word 4294967294) true, .wrote (.word 5) false,
      .wrote (.byte 1) false, .got (.byte 5) true, .got (.word 9) false] := by decide

end Window

end RowStore
