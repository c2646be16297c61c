import BatchDigest.Kernel.Select
import BatchDigest.Proofs.Kernel.Bounds

/-!
# Kernels with bounds

What each kernel with staged tables does, once more, with every access checked: the reads and writes
of its rows by the numbers that its loops compute, its copies and ranges of bytes, its differences.
The bytes of the tables are taken as they are, so a number that they hold can leave its bounds. A
computation that leaves none gives what the kernel gives.
-/

namespace BatchDigest

open Guarded

/-- A computation with bounds that can refuse its tables. -/
abbrev Loading := ExceptT LoadError Guarded

/-- The words at the front of a blob, of a number of bytes each. -/
def Guarded.readWords (kernel : String) (count size : Nat) (staged : Bytes) :
    Loading (Vector (Vector UInt8 size) count) :=
  if staged.length < count * size then throw (.short kernel staged.length (count * size))
  else takeBlocks size staged (Vector.replicate count (Vector.replicate size 0)) fun _ word => word

namespace Guarded

variable {kernel : String} {count size : Nat} {staged : Bytes}

/-- The piece of a string at a place, as a row of bytes. -/
def piece (size : Nat) (bytes : Bytes) (i : Nat) : Vector UInt8 size :=
  Bytes.toVector size ((bytes.drop (size * i)).take size)

theorem getElem_piece (size : Nat) (bytes : Bytes) (i : Nat) {j : Nat} (inside : j < size) :
    (piece size bytes i)[j] = bytes[size * i + j]?.getD 0 := by
  unfold piece Bytes.toVector
  rw [Vector.getElem_ofFn, List.getElem?_take_of_lt inside, List.getElem?_drop]

theorem toList_piece {bytes : Bytes} {i : Nat} (inside : size * (i + 1) ≤ bytes.length) :
    (piece size bytes i).toList = (bytes.drop (size * i)).take size := by
  refine Bytes.toList_toVector ?_
  rw [Nat.mul_succ] at inside
  rw [List.length_take, List.length_drop]
  omega

theorem word32LE_piece {bytes : Bytes} {i : Nat} (inside : 4 * (i + 1) ≤ bytes.length) :
    Bytes.word32LE (piece 4 bytes i).toList = Bytes.word32LE (bytes.drop (4 * i)) := by
  unfold Bytes.word32LE
  rw [toList_piece inside, List.take_take, Nat.min_self]

theorem word32BE_piece {bytes : Bytes} {i : Nat} (inside : 4 * (i + 1) ≤ bytes.length) :
    Bytes.word32BE (piece 4 bytes i).toList = Bytes.word32BE (bytes.drop (4 * i)) := by
  unfold Bytes.word32BE
  rw [toList_piece inside, List.take_take, Nat.min_self]

theorem word64LE_piece {bytes : Bytes} {i : Nat} (inside : 8 * (i + 1) ≤ bytes.length) :
    Bytes.word64LE (piece 8 bytes i).toList = Bytes.word64LE (bytes.drop (8 * i)) := by
  unfold Bytes.word64LE
  rw [toList_piece inside, List.take_take, Nat.min_self]

/-- A blob that is long enough is cut into its pieces, whatever is behind them. -/
theorem readWords_ok (positive : 0 < size) (long : count * size ≤ staged.length) :
    readWords kernel count size staged = pure (Vector.ofFn fun i => piece size staged i) := by
  have fits : ∀ i : Fin count, size * (i.val + 1) ≤ staged.length := fun i =>
    Nat.le_trans (Nat.mul_le_mul_left size i.isLt) (by rwa [Nat.mul_comm])
  unfold readWords
  rw [if_neg (Nat.not_lt.2 long), takeBlocks_ok positive]
  simp only [if_pos (fits _)]
  rfl

theorem readWords_short (short : staged.length < count * size) :
    readWords kernel count size staged = throw (.short kernel staged.length (count * size)) :=
  if_pos short

end Guarded

/-- What follows an access in bounds, while a blob is loaded. -/
theorem Guarded.lift_bind {α β : Type} (a : α) (next : α → Loading β) :
    ((liftM (Except.ok a : Guarded α) : Loading α) >>= next) = next a :=
  rfl

/-! ## MD2 -/

namespace Md2

/-- One pass. The byte that was written is read back. -/
def guardedPass (table : Vector UInt8 256) (carried : Vector UInt8 48 × UInt8) :
    Guarded (Vector UInt8 48 × UInt8) :=
  Fin.foldlM 48
    (fun (x, t) k => do
      let x ← set x k ((← get x k) ^^^ (← get table t.toNat))
      return (x, ← get x k))
    carried

def guardedStir (table : Vector UInt8 256) (x : Vector UInt8 48) : Guarded (Vector UInt8 48) := do
  let carried ← Fin.foldlM 18
    (fun carried j => do
      let (x, t) ← guardedPass table carried
      return (x, t + j.val.toUInt8))
    (x, 0)
  return carried.1

/-- Puts a block into the second third, and its sum with the first third into the last. -/
def guardedTakeIn (x : Vector UInt8 48) (block : Vector UInt8 16) : Guarded (Vector UInt8 48) :=
  (List.range 16).foldlM
    (fun x j => do
      let x ← set x (16 + j) (← get block j)
      set x (32 + j) ((← get block j) ^^^ (← get x j)))
    x

def guardedSum (table : Vector UInt8 256) (checksum block : Vector UInt8 16) :
    Guarded (Vector UInt8 16) := do
  let carried ← Fin.foldlM 16
    (fun (checksum, l) j => do
      let entry ← get table ((← get block j) ^^^ l).toNat
      let checksum ← set checksum j ((← get checksum j) ^^^ entry)
      return (checksum, ← get checksum j))
    (checksum, ← get checksum 15)
  return carried.1

def State.guardedAbsorb (table : Vector UInt8 256) (state : State) (block : Vector UInt8 16) :
    Guarded State := do
  let x ← guardedStir table (← guardedTakeIn state.x block)
  return ⟨x, ← guardedSum table state.checksum block⟩

/-- Hashes a record into a buffer. -/
def guardedDigest (table : Vector UInt8 256) (record buffer : Bytes) : Guarded Bytes := do
  let state ← (← blocks 16 record).foldlM
    (fun state block => do state.guardedAbsorb table (← array 16 block)) State.start
  let rest := Bytes.tail 16 record
  let missing ← sub 16 rest.length
  let last ← copyInto (List.replicate 16 missing.toUInt8) 0 rest.length rest
  let state ← state.guardedAbsorb table (← array 16 last)
  let state ← state.guardedAbsorb table state.checksum
  copy buffer (← slice state.x.toList 0 16)

/-- Loads a blob. -/
def guardedLoad (staged : Bytes) : Loading (Vector UInt8 256) :=
  if 256 ≤ staged.length then array 256 (staged.take 256)
  else throw (.short "md2" staged.length 256)

variable {table : Vector UInt8 256}

theorem guardedPass_ok (table : Vector UInt8 256) (carried : Vector UInt8 48 × UInt8) :
    guardedPass table carried = .ok (pass table carried) := by
  refine fin_foldlM_ok (fun (x, t) k => ?_) carried
  have written : (x.set k (x.get k ^^^ table.get ⟨t.toNat, t.toNat_lt⟩) k.isLt).get k =
      x.get k ^^^ table.get ⟨t.toNat, t.toNat_lt⟩ := Vector.getElem_set_self k.isLt
  dsimp only
  rw [get_ok x k.isLt, ok_bind, get_ok table t.toNat_lt, ok_bind, set_ok x k.isLt, ok_bind,
    get_ok _ k.isLt, ok_bind, written]
  rfl

theorem guardedStir_ok (table : Vector UInt8 256) (x : Vector UInt8 48) :
    guardedStir table x = .ok (stir table x) := by
  unfold guardedStir
  rw [fin_foldlM_ok (g := fun carried j =>
    let (x, t) := pass table carried
    (x, t + j.val.toUInt8)) (fun carried j => by rw [guardedPass_ok]; rfl)]
  rfl

/-- The 48 bytes after as many steps of taking in a block. -/
private def takenIn (x : Vector UInt8 48) (block : Vector UInt8 16) (steps : Nat) :
    Vector UInt8 48 :=
  Vector.ofFn fun i =>
    if second : 16 ≤ i.val ∧ i.val < 16 + steps ∧ i.val < 32 then block.get ⟨i.val - 16, by omega⟩
    else if third : 32 ≤ i.val ∧ i.val < 32 + steps then
      block.get ⟨i.val - 32, by omega⟩ ^^^ x.get ⟨i.val - 32, by omega⟩
    else x.get i

/-- A step writes a byte of the block and its sum with the byte of the first third. -/
private theorem takenIn_succ (x : Vector UInt8 48) (block : Vector UInt8 16) {j : Nat}
    (inside : j < 16) :
    ((takenIn x block j).set (16 + j) (block.get ⟨j, inside⟩)).set (32 + j)
      (block.get ⟨j, inside⟩ ^^^ x.get ⟨j, by omega⟩) = takenIn x block (j + 1) := by
  refine Vector.ext fun i within => ?_
  simp only [Vector.getElem_set, takenIn, Vector.getElem_ofFn]
  split_ifs with third second
  all_goals first | rfl | omega | skip
  · have place : i - 32 = j := by omega
    simp only [place]
  · have place : i - 16 = j := by omega
    simp only [place]

theorem guardedTakeIn_ok (x : Vector UInt8 48) (block : Vector UInt8 16) :
    guardedTakeIn x block = .ok (takeIn x block) := by
  have first : takenIn x block 0 = x := by
    refine Vector.ext fun i inside => ?_
    simp only [takenIn, Vector.getElem_ofFn]
    rw [dif_neg (by omega), dif_neg (by omega)]
    rfl
  have last : takenIn x block 16 = takeIn x block := by
    refine Vector.ext fun i inside => ?_
    simp only [takenIn, takeIn, Vector.getElem_ofFn]
    split_ifs <;> first | rfl | omega
  -- The second third is written before the third one, so the first one still stands as it was.
  have loop := foldlM_states (fun x j => do
      let x ← set x (16 + j) (← get block j)
      set x (32 + j) ((← get block j) ^^^ (← get x j)))
    (List.range 16) (takenIn x block) (fun i j at' => by
    obtain ⟨inside, rfl⟩ := List.getElem?_eq_some_iff.1 at'
    rw [List.length_range] at inside
    have kept : ((takenIn x block i).set (16 + i) (block.get ⟨i, inside⟩)).get ⟨i, by omega⟩ =
        x.get ⟨i, by omega⟩ := by
      show ((takenIn x block i).set (16 + i) (block.get ⟨i, inside⟩))[i] = _
      rw [Vector.getElem_set, if_neg (by omega)]
      simp only [takenIn, Vector.getElem_ofFn]
      rw [dif_neg (by omega), dif_neg (by omega)]
    rw [List.getElem_range, get_ok block inside, ok_bind, set_ok _ (by omega : 16 + i < 48),
      ok_bind, ok_bind, get_ok _ (by omega : i < 48), ok_bind, kept,
      set_ok _ (by omega : 32 + i < 48), takenIn_succ x block inside])
  unfold guardedTakeIn
  rw [first, List.length_range, last] at loop
  exact loop

theorem guardedSum_ok (table : Vector UInt8 256) (checksum block : Vector UInt8 16) :
    guardedSum table checksum block = .ok (sum table checksum block) := by
  have step : ∀ (carried : Vector UInt8 16 × UInt8) (j : Fin 16), (do
      let entry ← get table ((← get block j) ^^^ carried.2).toNat
      let checksum ← set carried.1 j ((← get carried.1 j) ^^^ entry)
      return (checksum, ← get checksum j) : Guarded (Vector UInt8 16 × UInt8)) =
        .ok (Bytes.setAt carried.1 j (carried.1.get j ^^^ lookup table (block.get j ^^^ carried.2)),
          carried.1.get j ^^^ lookup table (block.get j ^^^ carried.2)) := by
    intro (checksum, l) j
    have written : (checksum.set j (checksum.get j ^^^ lookup table (block.get j ^^^ l)) j.isLt).get
        j = checksum.get j ^^^ lookup table (block.get j ^^^ l) := Vector.getElem_set_self j.isLt
    have entry : get table (block.get j ^^^ l).toNat = .ok (lookup table (block.get j ^^^ l)) :=
      get_ok table (UInt8.toNat_lt _)
    dsimp only
    rw [get_ok block j.isLt, ok_bind, entry, ok_bind, get_ok checksum j.isLt, ok_bind,
      set_ok checksum j.isLt, ok_bind, get_ok _ j.isLt, ok_bind, written]
    rfl
  unfold guardedSum
  rw [get_ok checksum (by decide : 15 < 16), ok_bind]
  show (Fin.foldlM 16 _ _ >>= _) = _
  rw [fin_foldlM_ok step]
  rfl

theorem State.guardedAbsorb_ok (table : Vector UInt8 256) (state : State)
    (block : Vector UInt8 16) :
    state.guardedAbsorb table block = .ok (state.absorb table block) := by
  unfold guardedAbsorb
  rw [guardedTakeIn_ok, ok_bind, guardedStir_ok, ok_bind, guardedSum_ok]
  rfl

/-- A record is hashed without a stray, into a buffer of the digest size. -/
theorem guardedDigest_ok {table : Vector UInt8 256} {record state buffer : Bytes}
    (final : finalState table record = .ok state) (size : buffer.length = 16) :
    guardedDigest table record buffer = .ok (state.take 16) := by
  have short := Bytes.length_tail_lt (by decide : 0 < 16) record
  obtain ⟨last, written, length⟩ := Bytes.write_ok
    (List.replicate 16 (16 - (Bytes.tail 16 record).length).toUInt8) 0 (Bytes.tail 16 record)
    (by rw [List.length_replicate]; omega)
  rw [List.length_replicate] at length
  have closed : lastBlock (Bytes.tail 16 record) = .ok last := written
  have copied := copyInto_of_write written
  rw [Nat.zero_add] at copied
  unfold finalState at final
  dsimp only at final
  rw [closed] at final
  obtain rfl := Except.ok.inj final
  have front : ∀ block ∈ Bytes.blocks 16 record, ∀ state : State,
      (do state.guardedAbsorb table (← array 16 block) : Guarded State) =
        .ok (state.absorb table (block.toVector 16)) := by
    intro block mem state
    rw [array_ok (Bytes.length_of_mem_blocks mem), ok_bind, State.guardedAbsorb_ok]
  unfold guardedDigest
  dsimp only
  rw [blocks_ok (by decide), ok_bind, foldlM_ok front, ok_bind, sub_ok (Nat.le_of_lt short),
    ok_bind, copied, ok_bind, array_ok length, ok_bind, State.guardedAbsorb_ok, ok_bind,
    State.guardedAbsorb_ok, ok_bind, slice_ok (by decide) (by simp), ok_bind,
    copy_ok (by simp [size]), List.drop_zero, List.take_take, Nat.min_self]

theorem guardedLoad_eq (staged : Bytes) : (guardedLoad staged).run = .ok (load staged) := by
  unfold guardedLoad load
  by_cases long : 256 ≤ staged.length
  · rw [if_pos long, if_pos long,
      array_ok (by rw [List.length_take, Nat.min_eq_left long]), Bytes.toVector_take]
    rfl
  · rw [if_neg long, if_neg long]
    rfl

end Md2

/-! ## SHA-256 -/

namespace Sha256

open Bytes (rotateRight32)

/-- The schedule: the words of the block, then each later word from four before it. -/
def guardedSchedule (block : Bytes) : Guarded (Vector UInt32 64) := do
  let first ← (← blocks 4 block).zipIdx.foldlM
    (fun w (part, i) => do set w i (Bytes.word32BE (← array 4 part).toList))
    (Vector.replicate 64 0)
  Fin.foldlM 48
    (fun w i => do
      let early ← get w (← sub (i.val + 16) 15)
      let late ← get w (← sub (i.val + 16) 2)
      let s0 := rotateRight32 early 7 ^^^ rotateRight32 early 18 ^^^ (early >>> 3)
      let s1 := rotateRight32 late 17 ^^^ rotateRight32 late 19 ^^^ (late >>> 10)
      let word := (← get w (← sub (i.val + 16) 16)) + s0 + (← get w (← sub (i.val + 16) 7)) + s1
      set w (i.val + 16) word)
    first

def guardedCompress (constants : Vector UInt32 64) (state : Vector UInt32 8) (block : Bytes) :
    Guarded (Vector UInt32 8) := do
  let w ← guardedSchedule block
  let v ← Fin.foldlM 64 (fun v i => do return round v (← get constants i) (← get w i)) state
  return state.zipWith (· + ·) v

/-- The big-endian bytes of words, written over the pieces of a buffer as far as both go. -/
def guardedWrite {n : Nat} (words : Vector UInt32 n) (buffer : Bytes) : Guarded Bytes := do
  let written ← ((← blocks 4 buffer).zip words.toList).mapM
    fun (part, word) => copy part (Bytes.ofNatBE 4 word.toNat)
  return written.flatten ++ buffer.drop (4 * written.length)

/-- Hashes a record into a buffer. -/
def guardedDigest (tables : Tables) (record buffer : Bytes) : Guarded Bytes := do
  let state ← (← blocks 64 record).foldlM (guardedCompress tables.constants) tables.initial
  let rest := Bytes.tail 64 record
  let last ← copyInto (Bytes.zeros 128) 0 rest.length rest
  let last ← change last rest.length fun _ => 0x80
  let stop := if rest.length < 56 then 64 else 128
  let last ← copyInto last (← sub stop 8) stop
    (Bytes.ofNatBE 8 (LengthPadding.bitLength record))
  let state ← (← blocks 64 (← slice last 0 stop)).foldlM (guardedCompress tables.constants) state
  guardedWrite state buffer

/-- Loads a blob: the words of both tables, one after the other. -/
def guardedLoad (staged : Bytes) : Loading Tables := do
  let words ← readWords "sha256" 72 4 staged
  return {
    constants := Vector.ofFn fun i => Bytes.word32LE (words.get ⟨i.val, by omega⟩).toList
    initial := Vector.ofFn fun i => Bytes.word32LE (words.get ⟨64 + i.val, by omega⟩).toList }

/-- The row of words after as many words of a block. -/
private def filled (block : Bytes) (steps : Nat) : Vector UInt32 64 :=
  Vector.ofFn fun i => if i.val < steps then Bytes.word32BE (block.drop (4 * i.val)) else 0

/-- The words of a block fill the front of the row. -/
private theorem fill_ok {block : Bytes} (size : block.length = 64) :
    (Bytes.blocks 4 block).zipIdx.foldlM
      (fun w (part, i) => do set w i (Bytes.word32BE (← array 4 part).toList))
      (Vector.replicate 64 0) = (.ok (filled block 16) : Guarded (Vector UInt32 64)) := by
  have start : filled block 0 = Vector.replicate 64 0 := by
    refine Vector.ext fun i inside => ?_
    simp [filled]
  have length : (Bytes.blocks 4 block).zipIdx.length = 16 := by
    rw [List.length_zipIdx, Bytes.blocks, Bytes.length_pieces, size]
  have loop := foldlM_states
    (fun w (part, i) => do set w i (Bytes.word32BE (← array 4 part).toList))
    (Bytes.blocks 4 block).zipIdx (filled block) (by
      intro i (part, j) at'
      rw [List.getElem?_zipIdx, getElem?_blocks (by decide)] at at'
      split_ifs at at' with inside
      case neg => cases at'
      obtain ⟨rfl, rfl⟩ := Prod.mk.inj (Option.some.inj at')
      have within : i < 64 := by omega
      dsimp only
      rw [array_ok (by rw [List.length_take, List.length_drop]; omega), ok_bind, Nat.zero_add,
        set_ok _ within]
      refine congrArg Except.ok (Vector.ext fun k bound => ?_)
      have word := word32BE_piece inside
      unfold piece at word
      rw [Vector.getElem_set, word]
      simp only [filled, Vector.getElem_ofFn]
      split_ifs with here below below <;> first | rfl | omega | (subst here; rfl))
  rwa [start, length] at loop

theorem guardedSchedule_ok {block : Bytes} (size : block.length = 64) :
    guardedSchedule block = .ok (schedule block) := by
  have first : filled block 16 =
      (Bytes.words32BE 16 block ++ Vector.replicate 48 (0 : UInt32) : Vector UInt32 (16 + 48)) := by
    refine Vector.ext fun i inside => ?_
    rw [Vector.getElem_append]
    simp [filled, Bytes.words32BE]
  unfold guardedSchedule schedule
  rw [blocks_ok (by decide), ok_bind, fill_ok size, ok_bind, first]
  refine fin_foldlM_ok (fun w i => ?_) _
  have inside := i.isLt
  rw [sub_ok (by omega), ok_bind, get_ok w (by omega : i.val + 16 - 15 < 64), ok_bind,
    sub_ok (by omega), ok_bind, get_ok w (by omega : i.val + 16 - 2 < 64), ok_bind,
    sub_ok (by omega), ok_bind, get_ok w (by omega : i.val + 16 - 16 < 64), ok_bind,
    sub_ok (by omega), ok_bind, get_ok w (by omega : i.val + 16 - 7 < 64), ok_bind,
    set_ok w (by omega : i.val + 16 < 64)]
  rfl

theorem guardedCompress_ok (constants : Vector UInt32 64) (state : Vector UInt32 8) {block : Bytes}
    (size : block.length = 64) :
    guardedCompress constants state block = .ok (compress constants state block) := by
  unfold guardedCompress
  rw [guardedSchedule_ok size, ok_bind, fin_foldlM_ok (g := fun v i =>
    round v (constants.get i) ((schedule block).get i)) (fun v i => by
      rw [get_ok constants i.isLt, ok_bind, get_ok _ i.isLt, ok_bind]; rfl)]
  rfl

/-- A buffer of the size of the words takes in their bytes. -/
theorem guardedWrite_ok {n : Nat} (words : Vector UInt32 n) {buffer : Bytes}
    (size : buffer.length = 4 * n) :
    guardedWrite words buffer = .ok (Bytes.ofWords32BE words.toList) := by
  have count : (Bytes.blocks 4 buffer).length = words.toList.length := by
    rw [Bytes.blocks, Bytes.length_pieces, size, Vector.length_toList,
      Nat.mul_div_cancel_left n (by decide)]
  have copies : ∀ item ∈ (Bytes.blocks 4 buffer).zip words.toList,
      copy item.1 (Bytes.ofNatBE 4 item.2.toNat) = .ok (Bytes.ofNatBE 4 item.2.toNat) := by
    intro item mem
    refine copy_ok ?_
    rw [Bytes.length_of_mem_blocks (List.of_mem_zip mem).1, Bytes.length_ofNatBE]
  have written : ((Bytes.blocks 4 buffer).zip words.toList).map
      (fun item => Bytes.ofNatBE 4 item.2.toNat) =
        words.toList.map fun word => Bytes.ofNatBE 4 word.toNat := by
    rw [show (fun item : Bytes × UInt32 => Bytes.ofNatBE 4 item.2.toNat) =
        (fun word : UInt32 => Bytes.ofNatBE 4 word.toNat) ∘ Prod.snd from rfl, ← List.map_map,
      List.map_snd_zip (Nat.le_of_eq count.symm)]
  unfold guardedWrite
  rw [blocks_ok (by decide), ok_bind, mapM_ok copies, ok_bind, written, List.length_map,
    Vector.length_toList, List.drop_eq_nil_of_le (Nat.le_of_eq size), List.append_nil]
  rfl

/-- A record is hashed without a stray, into a buffer of the digest size. -/
theorem guardedDigest_ok {tables : Tables} {record state buffer : Bytes}
    (final : finalState tables record = .ok state) (size : buffer.length = 32) :
    guardedDigest tables record buffer = .ok (state.take 32) := by
  have short := Bytes.length_tail_lt (by decide : 0 < 64) record
  obtain ⟨first, hfirst, length₁⟩ := Bytes.write_ok (Bytes.zeros 128) 0 (Bytes.tail 64 record)
    (by rw [Bytes.length_zeros]; omega)
  rw [Bytes.length_zeros] at length₁
  obtain ⟨second, hsecond, length₂⟩ := Bytes.write_ok first (Bytes.tail 64 record).length [0x80]
    (by rw [length₁, List.length_singleton]; omega)
  obtain ⟨stop, hstop, room⟩ : ∃ stop,
      (if (Bytes.tail 64 record).length < 56 then 64 else 128) = stop ∧ (stop = 64 ∨ stop = 128) :=
    ⟨_, rfl, by split <;> simp⟩
  obtain ⟨third, hthird, length₃⟩ := Bytes.write_ok second (stop - 8)
    (Bytes.ofNatBE 8 (LengthPadding.bitLength record)) (by
      rw [length₂, length₁, Bytes.length_ofNatBE]
      omega)
  have copied := copyInto_of_write hfirst
  have field := copyInto_of_write hthird
  rw [Nat.zero_add] at copied
  rw [Bytes.length_ofNatBE, Nat.sub_add_cancel (by omega)] at field
  have closed : LengthPadding.closing (Bytes.tail 64 record)
      (Bytes.ofNatBE 8 (LengthPadding.bitLength record)) =
        .ok (Bytes.blocks 64 (third.take stop)) := by
    unfold LengthPadding.closing
    rw [hfirst]
    show (Bytes.write first _ _ >>= _) = _
    rw [hsecond]
    show (Bytes.write second (_ - 8) _ >>= _) = _
    rw [hstop, hthird]
    rfl
  unfold finalState LengthPadding.foldBlocks at final
  dsimp only at final
  rw [closed] at final
  obtain rfl := Except.ok.inj final
  have compresses : ∀ bytes : Bytes, ∀ block ∈ Bytes.blocks 64 bytes, ∀ state,
      guardedCompress tables.constants state block = .ok (compress tables.constants state block) :=
    fun bytes block mem state => guardedCompress_ok _ state (Bytes.length_of_mem_blocks mem)
  unfold guardedDigest
  dsimp only
  rw [blocks_ok (by decide), ok_bind, foldlM_ok (compresses _), ok_bind, copied, ok_bind,
    change_of_write hsecond, ok_bind, hstop, sub_ok (by omega), ok_bind, field, ok_bind,
    slice_ok (Nat.zero_le _) (by omega), ok_bind, blocks_ok (by decide), ok_bind,
    foldlM_ok (compresses _), ok_bind, guardedWrite_ok _ size, List.drop_zero]
  exact congrArg Except.ok (List.take_of_length_le (by simp)).symm

theorem guardedLoad_eq (staged : Bytes) : (guardedLoad staged).run = .ok (load staged) := by
  unfold guardedLoad load
  by_cases long : 288 ≤ staged.length
  · have inside : ∀ i < 72, 4 * (i + 1) ≤ staged.length := fun i bound => by omega
    have constants : (Vector.ofFn fun i : Fin 64 =>
        Bytes.word32LE (piece 4 staged i.val).toList) = Bytes.words32LE 64 staged :=
      congrArg Vector.ofFn (funext fun i => word32LE_piece (inside i.val (by omega)))
    have initial : (Vector.ofFn fun i : Fin 8 =>
        Bytes.word32LE (piece 4 staged (64 + i.val)).toList) =
          Bytes.words32LE 8 (staged.drop 256) := by
      refine congrArg Vector.ofFn (funext fun i => ?_)
      rw [word32LE_piece (inside (64 + i.val) (by omega)), List.drop_drop, Nat.mul_add]
    rw [if_pos long, readWords_ok (by decide) long, pure_bind]
    simp only [get_ofFn, constants, initial]
    rfl
  · rw [if_neg long, readWords_short (Nat.not_le.1 long)]
    rfl

end Sha256

end BatchDigest
