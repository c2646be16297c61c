import BatchDigest.Proofs.Kernel.Guarded

/-!
# Kernels over lanes with bounds

Keccak and BLAKE2b with every access checked. The entries of the message schedule of BLAKE2b are
bytes of the staged tables and name words of the block, so they are the one place where what is
staged decides how far a kernel reaches.
-/

namespace BatchDigest

open Guarded

/-- The words of pieces of eight bytes. -/
theorem Guarded.words_pieces {n : Nat} {bytes : Bytes} (long : 8 * n ≤ bytes.length) :
    (Vector.ofFn fun i : Fin n => piece 8 bytes i.val).map
      (fun word => Bytes.word64LE word.toList) = Bytes.words64LE n bytes := by
  rw [Vector.map_ofFn]
  exact congrArg Vector.ofFn (funext fun i => word64LE_piece (by omega))

/-! ## Keccak -/

namespace Keccak

open Bytes (rotateLeft64)

def guardedParity (a : State) (x : Nat) : Guarded UInt64 := do
  return (← get a x) ^^^ (← get a (x + 5)) ^^^ (← get a (x + 10)) ^^^ (← get a (x + 15)) ^^^
    (← get a (x + 20))

def guardedMixColumns (a : State) : Guarded State := do
  let c : Vector UInt64 5 ← Vector.ofFnM fun x => guardedParity a x
  let d : Vector UInt64 5 ← Vector.ofFnM fun x => do
    return (← get c ((x.val + 4) % 5)) ^^^ rotateLeft64 (← get c ((x.val + 1) % 5)) 1
  Vector.ofFnM fun i => do return (← get a i) ^^^ (← get d (i.val % 5))

def guardedTurnLanes (a : State) : Guarded State := do
  let carried ← walk.foldlM
    (fun (a, carried) (turn, lane) => do
      let next ← get a lane
      return (← set a lane (rotateLeft64 carried turn), next))
    (a, ← get a 1)
  return carried.1

def guardedMixRows (a : State) : Guarded State :=
  Vector.ofFnM fun i => do
    return (← get a i) ^^^ (~~~(← get a (i.val / 5 * 5 + (i.val + 1) % 5)) &&&
      (← get a (i.val / 5 * 5 + (i.val + 2) % 5)))

def guardedRound (a : State) (constant : UInt64) : Guarded State := do
  let a ← guardedMixRows (← guardedTurnLanes (← guardedMixColumns a))
  set a 0 ((← get a 0) ^^^ constant)

def guardedPermute (constants : Vector UInt64 24) (a : State) : Guarded State :=
  constants.foldlM guardedRound a

def guardedAbsorb (a : State) (block : Bytes) : Guarded State :=
  takeBlocks 8 block a fun lane bytes => lane ^^^ Bytes.word64LE bytes.toList

/-- Hashes a record into a buffer. -/
def Sponge.guardedDigest (s : Sponge) (constants : Vector UInt64 24) (record buffer : Bytes) :
    Guarded Bytes := do
  let rate ← sub 200 (2 * s.digestSize)
  let state ← (← blocks rate record).foldlM
    (fun a block => do guardedPermute constants (← guardedAbsorb a block)) (Vector.replicate 25 0)
  let rest := Bytes.tail rate record
  let last ← copyInto (Bytes.zeros 200) 0 rest.length rest
  let last ← change last rest.length (· ^^^ s.suffix)
  let last ← change last (← sub rate 1) (· ^^^ 0x80)
  let state ← guardedPermute constants (← guardedAbsorb state (← slice last 0 rate))
  writeLanes state buffer

/-- Loads a blob. -/
def guardedLoad (staged : Bytes) : Loading (Vector UInt64 24) := do
  return (← readWords "keccak" 24 8 staged).map fun word => Bytes.word64LE word.toList

theorem guardedParity_ok (a : State) (x : Fin 5) : guardedParity a x = .ok (parity a x) := by
  have inside := x.isLt
  unfold guardedParity
  rw [get_ok a (by omega), ok_bind, get_ok a (by omega), ok_bind, get_ok a (by omega), ok_bind,
    get_ok a (by omega), ok_bind, get_ok a (by omega), ok_bind]
  rfl

theorem guardedMixColumns_ok (a : State) : guardedMixColumns a = .ok (mixColumns a) := by
  have mixed : ∀ c : Vector UInt64 5, (Vector.ofFnM fun x => do
      return (← get c ((x.val + 4) % 5)) ^^^ rotateLeft64 (← get c ((x.val + 1) % 5)) 1 :
        Guarded (Vector UInt64 5)) =
      .ok (Vector.ofFn fun x => c.get (x + 4) ^^^ rotateLeft64 (c.get (x + 1)) 1) := by
    refine fun c => ofFnM_ok fun x => ?_
    rw [get_ok c (Nat.mod_lt _ (by decide)), ok_bind, get_ok c (Nat.mod_lt _ (by decide)), ok_bind]
    rfl
  unfold guardedMixColumns
  rw [ofFnM_ok (guardedParity_ok a), ok_bind, mixed, ok_bind]
  refine ofFnM_ok fun i => ?_
  rw [get_ok a i.isLt, ok_bind, get_ok _ (Nat.mod_lt _ (by decide)), ok_bind]
  rfl

theorem guardedTurnLanes_ok (a : State) : guardedTurnLanes a = .ok (turnLanes a) := by
  have step : ∀ item ∈ walk, ∀ carried : State × UInt64, (do
      let next ← get carried.1 item.2
      return (← set carried.1 item.2 (rotateLeft64 carried.2 item.1), next) :
        Guarded (State × UInt64)) =
      .ok (carried.1.set item.2.val (rotateLeft64 carried.2 item.1) item.2.isLt,
        carried.1.get item.2) := by
    intro item _ carried
    rw [get_ok _ item.2.isLt, ok_bind, set_ok _ item.2.isLt, ok_bind]
    rfl
  unfold guardedTurnLanes
  rw [get_ok a (by decide), ok_bind]
  show (List.foldlM _ _ _ >>= _) = _
  rw [foldlM_ok step]
  rfl

theorem guardedMixRows_ok (a : State) : guardedMixRows a = .ok (mixRows a) := by
  refine ofFnM_ok fun i => ?_
  have inside := i.isLt
  rw [get_ok a inside, ok_bind, get_ok a (by omega), ok_bind, get_ok a (by omega), ok_bind]
  rfl

theorem guardedRound_ok (a : State) (constant : UInt64) :
    guardedRound a constant = .ok (round a constant) := by
  unfold guardedRound
  rw [guardedMixColumns_ok, ok_bind, guardedTurnLanes_ok, ok_bind, guardedMixRows_ok, ok_bind,
    get_ok _ (by decide), ok_bind, set_ok _ (by decide)]
  rfl

theorem guardedPermute_ok (constants : Vector UInt64 24) (a : State) :
    guardedPermute constants a = .ok (permute constants a) :=
  vector_foldlM_ok (fun constant _ a => guardedRound_ok a constant) a

theorem guardedAbsorb_ok (a : State) (block : Bytes) :
    guardedAbsorb a block = .ok (absorb a block) := by
  unfold guardedAbsorb absorb
  rw [takeBlocks_ok (by decide)]
  refine congrArg Except.ok (congrArg Vector.ofFn (funext fun i => ?_))
  split
  next inside => rw [← word64LE_piece inside]; rfl
  next => rfl

/-- The steps that write the last block stay within its 200 bytes. -/
private theorem Sponge.exists_lastBlock (s : Sponge) {width : Nat} (positive : 0 < width)
    (within : width ≤ 200) {rest : Bytes} (short : rest.length < width) :
    ∃ first second third : Bytes, (Bytes.zeros 200).write 0 rest = .ok first ∧
      first.toggle rest.length s.suffix = .ok second ∧ second.toggle (width - 1) 0x80 = .ok third ∧
      third.length = 200 ∧ s.lastBlock width rest = .ok (third.take width) := by
  obtain ⟨first, written, length₁⟩ := Bytes.write_ok (Bytes.zeros 200) 0 rest
    (by rw [Bytes.length_zeros]; omega)
  rw [Bytes.length_zeros] at length₁
  obtain ⟨second, suffixed, length₂⟩ := Bytes.toggle_ok first rest.length s.suffix (by omega)
  obtain ⟨third, closed, length₃⟩ := Bytes.toggle_ok second (width - 1) 0x80 (by omega)
  refine ⟨first, second, third, written, suffixed, closed, by omega, ?_⟩
  unfold Sponge.lastBlock
  rw [written]
  show (first.toggle _ _ >>= _) = _
  rw [suffixed]
  show (second.toggle _ _ >>= _) = _
  rw [closed]
  rfl

/-- A record is hashed without a stray, into a buffer of the digest size. -/
theorem Sponge.guardedDigest_ok {s : Sponge} {constants : Vector UInt64 24}
    {record state buffer : Bytes} (small : 2 * s.digestSize < 200)
    (final : s.finalState constants record = .ok state) (size : buffer.length = s.digestSize) :
    s.guardedDigest constants record buffer = .ok (state.take s.digestSize) := by
  have rate : s.rate = .ok (200 - 2 * s.digestSize) := by
    unfold Sponge.rate
    rw [if_neg (by omega), if_neg (by omega)]
  have difference := sub_ok (Nat.le_of_lt small)
  have positive : 0 < 200 - 2 * s.digestSize := by omega
  have within : 200 - 2 * s.digestSize ≤ 200 := Nat.sub_le _ _
  -- From here on it does not matter where the rate comes from.
  generalize 200 - 2 * s.digestSize = width at rate difference positive within
  obtain ⟨first, second, third, written, suffixed, toggled, length, closed⟩ :=
    s.exists_lastBlock positive within (Bytes.length_tail_lt positive record)
  have copied := copyInto_of_write written
  rw [Nat.zero_add] at copied
  unfold Sponge.finalState at final
  rw [rate] at final
  change ((s.lastBlock width (Bytes.tail width record)) >>= _) = _ at final
  rw [closed] at final
  obtain rfl := Except.ok.inj final
  have absorbs : ∀ block ∈ Bytes.blocks width record, ∀ a : State,
      (do guardedPermute constants (← guardedAbsorb a block) : Guarded State) =
        .ok (permute constants (absorb a block)) := by
    intro block _ a
    rw [guardedAbsorb_ok, ok_bind, guardedPermute_ok]
  unfold Sponge.guardedDigest
  rw [difference, ok_bind, blocks_ok positive, ok_bind, foldlM_ok absorbs, ok_bind]
  dsimp only
  rw [copied, ok_bind, change_of_toggle suffixed, ok_bind, sub_ok positive, ok_bind,
    change_of_toggle toggled, ok_bind, slice_ok (Nat.zero_le _) (by omega), ok_bind,
    guardedAbsorb_ok, ok_bind, guardedPermute_ok, ok_bind, writeLanes_ok _ (by omega), size,
    List.drop_zero]

theorem guardedLoad_eq (staged : Bytes) : (guardedLoad staged).run = .ok (load staged) := by
  unfold guardedLoad load
  by_cases long : 192 ≤ staged.length
  · rw [if_pos long, readWords_ok (by decide) long, pure_bind, words_pieces long]
    rfl
  · rw [if_neg long, readWords_short (Nat.not_le.1 long)]
    rfl

end Keccak

/-! ## BLAKE2b -/

namespace Blake2b

open Bytes (rotateRight64)

/-- The tables with the bytes of the message schedule as they are. -/
structure Raw where
  initial : Vector UInt64 8
  rows : Vector (Vector UInt8 16) 12
  chaining : Vector UInt64 8
  keyBlock : Option (Vector UInt8 128)

/-- All bytes of the schedule name words of a block. -/
def Raw.Fit (raw : Raw) : Prop :=
  ∀ row ∈ raw.rows, ∀ entry ∈ row, entry.toNat < 16

/-- A row of the schedule, with what its bytes name. -/
def named (row : Vector UInt8 16) : Vector (Fin 16) 16 :=
  row.map fun entry => ⟨entry.toNat % 16, Nat.mod_lt _ (by decide)⟩

/-- The decoded tables. -/
def Raw.tables (raw : Raw) : Tables where
  initial := raw.initial
  schedule := raw.rows.map named
  chaining := raw.chaining
  keyBlock := raw.keyBlock.map Vector.toList

def guardedMix (v : Vector UInt64 16) (a b c d : Nat) (x y : UInt64) :
    Guarded (Vector UInt64 16) := do
  let v ← set v a ((← get v a) + (← get v b) + x)
  let v ← set v d (rotateRight64 ((← get v d) ^^^ (← get v a)) 32)
  let v ← set v c ((← get v c) + (← get v d))
  let v ← set v b (rotateRight64 ((← get v b) ^^^ (← get v c)) 24)
  let v ← set v a ((← get v a) + (← get v b) + y)
  let v ← set v d (rotateRight64 ((← get v d) ^^^ (← get v a)) 16)
  let v ← set v c ((← get v c) + (← get v d))
  set v b (rotateRight64 ((← get v b) ^^^ (← get v c)) 63)

/-- The word that an entry of a row names. -/
def guardedWord (m : Vector UInt64 16) (row : Vector UInt8 16) (i : Nat) : Guarded UInt64 := do
  get m (← get row i).toNat

def guardedRound (m : Vector UInt64 16) (v : Vector UInt64 16) (row : Vector UInt8 16) :
    Guarded (Vector UInt64 16) := do
  let v ← guardedMix v 0 4 8 12 (← guardedWord m row 0) (← guardedWord m row 1)
  let v ← guardedMix v 1 5 9 13 (← guardedWord m row 2) (← guardedWord m row 3)
  let v ← guardedMix v 2 6 10 14 (← guardedWord m row 4) (← guardedWord m row 5)
  let v ← guardedMix v 3 7 11 15 (← guardedWord m row 6) (← guardedWord m row 7)
  let v ← guardedMix v 0 5 10 15 (← guardedWord m row 8) (← guardedWord m row 9)
  let v ← guardedMix v 1 6 11 12 (← guardedWord m row 10) (← guardedWord m row 11)
  let v ← guardedMix v 2 7 8 13 (← guardedWord m row 12) (← guardedWord m row 13)
  guardedMix v 3 4 9 14 (← guardedWord m row 14) (← guardedWord m row 15)

/-- Mixes the number of bytes and the mark of the last block into the working words. -/
def guardedMarks (v : Vector UInt64 16) (count : Nat) (last : Bool) :
    Guarded (Vector UInt64 16) := do
  let v ← set v 12 ((← get v 12) ^^^ count.toUInt64)
  let v ← set v 13 ((← get v 13) ^^^ (count / 18446744073709551616).toUInt64)
  if last then set v 14 (~~~(← get v 14)) else return v

/-- Folds the working words into the chaining value. -/
def guardedFold (h : Vector UInt64 8) (v : Vector UInt64 16) : Guarded (Vector UInt64 8) :=
  Vector.ofFnM fun i => do return (← get h i) ^^^ ((← get v i) ^^^ (← get v (i.val + 8)))

def guardedCompress (raw : Raw) (h : Vector UInt64 8) (block : Vector UInt8 128) (count : Nat)
    (last : Bool) : Guarded (Vector UInt64 8) := do
  let m ← takeBlocks 8 block.toList (Vector.replicate 16 0) fun _ part =>
    Bytes.word64LE part.toList
  guardedFold h (← raw.rows.foldlM (guardedRound m) (← guardedMarks (h ++ raw.initial) count last))

/-- Takes in the key block. -/
def Progress.guardedKey (raw : Raw) (record : Bytes) (p : Progress) : Guarded Progress :=
  match raw.keyBlock with
  | some block => do
    return ⟨← guardedCompress raw p.chaining block (p.count + 128) record.isEmpty, p.count + 128⟩
  | none => return p

/-- Takes in the record, cut before its last block. -/
def Progress.guardedRecord (raw : Raw) (record : Bytes) (p : Progress) :
    Guarded (Vector UInt64 8) := do
  if record.isEmpty && raw.keyBlock.isSome then return p.chaining
  let body ← slice record 0 (bodyLength record)
  let rest ← slice record (bodyLength record) record.length
  let p ← (← blocks 128 body).foldlM
    (fun (p : Progress) chunk => do
      let chaining ← guardedCompress raw p.chaining (← array 128 chunk) (p.count + 128) false
      return (⟨chaining, p.count + 128⟩ : Progress))
    p
  let block ← copyInto (Bytes.zeros 128) 0 rest.length rest
  guardedCompress raw p.chaining (← array 128 block) (p.count + rest.length) true

/-- Hashes a record into a buffer. -/
def guardedDigest (raw : Raw) (record buffer : Bytes) : Guarded Bytes := do
  let p ← Progress.guardedKey raw record ⟨raw.chaining, 0⟩
  writeLanes (← p.guardedRecord raw record) buffer

/-- Loads the message schedule, whose entries have to name words of a block. -/
def guardedRows (staged : Bytes) : Loading (Vector (Vector UInt8 16) 12) := do
  let rows ← readWords "blake2b" 12 16 (← slice staged 64 staged.length)
  if rows.any fun row => row.any (16 ≤ ·.toNat) then throw (.scheduleOutOfRange "blake2b")
  else return rows

/-- Loads the key block of a blob that is long enough to have one. -/
def guardedKeyBlock (staged : Bytes) : Loading (Option (Vector UInt8 128)) := do
  if staged.length = keyedLength then
    let held ← readWords "blake2b" 1 128 (← slice staged plainLength staged.length)
    let block ← (Guarded.get held 0 : Guarded (Vector UInt8 128))
    return some block
  else return none

/-- Loads a blob. -/
def guardedLoad (staged : Bytes) : Loading Raw := do
  if staged.length ≠ plainLength ∧ staged.length ≠ keyedLength then
    throw (.wrongLength "blake2b" staged.length plainLength keyedLength)
  else
    let initial ← readWords "blake2b" 8 8 staged
    let rows ← guardedRows staged
    let chaining ← readWords "blake2b" 8 8 (← slice staged 256 staged.length)
    let keyBlock ← guardedKeyBlock staged
    return {
      initial := initial.map fun word => Bytes.word64LE word.toList
      rows
      chaining := chaining.map fun word => Bytes.word64LE word.toList
      keyBlock }

theorem guardedMix_ok (v : Vector UInt64 16) {a b c d : Nat} (ha : a < 16) (hb : b < 16)
    (hc : c < 16) (hd : d < 16) (x y : UInt64) :
    guardedMix v a b c d x y = .ok (mix v ⟨a, ha⟩ ⟨b, hb⟩ ⟨c, hc⟩ ⟨d, hd⟩ x y) := by
  unfold guardedMix
  simp only [get_ok _ ha, get_ok _ hb, get_ok _ hc, get_ok _ hd, set_ok _ ha, set_ok _ hb,
    set_ok _ hc, set_ok _ hd, ok_bind]
  rfl

theorem get_named {row : Vector UInt8 16} {i : Nat} (inside : i < 16)
    (fit : (row.get ⟨i, inside⟩).toNat < 16) :
    (named row).get ⟨i, inside⟩ = ⟨(row.get ⟨i, inside⟩).toNat, fit⟩ := by
  have entry : (named row).get ⟨i, inside⟩ =
      ⟨(row.get ⟨i, inside⟩).toNat % 16, Nat.mod_lt _ (by decide)⟩ :=
    Vector.getElem_map _ inside
  rw [entry]
  exact Fin.ext (Nat.mod_eq_of_lt fit)

theorem guardedWord_ok (m : Vector UInt64 16) {row : Vector UInt8 16}
    (fit : ∀ entry ∈ row, entry.toNat < 16) {i : Nat} (inside : i < 16) :
    guardedWord m row i = .ok (m.get ((named row).get ⟨i, inside⟩)) := by
  have entry : (row.get ⟨i, inside⟩).toNat < 16 := fit _ (Vector.getElem_mem inside)
  unfold guardedWord
  rw [get_ok row inside, ok_bind, get_ok m entry, get_named inside entry]

theorem guardedRound_ok (m v : Vector UInt64 16) {row : Vector UInt8 16}
    (fit : ∀ entry ∈ row, entry.toNat < 16) :
    guardedRound m v row = .ok (round m v (named row)) := by
  unfold guardedRound
  simp (disch := decide) only [guardedWord_ok m fit, guardedMix_ok, ok_bind]
  rfl

theorem guardedMarks_ok (v : Vector UInt64 16) (count : Nat) (last : Bool) :
    guardedMarks v count last = .ok (
      let v := v.set 12 (v.get 12 ^^^ count.toUInt64) (by decide)
      let v := v.set 13 (v.get 13 ^^^ (count / 18446744073709551616).toUInt64) (by decide)
      if last then v.set 14 (~~~v.get 14) (by decide) else v) := by
  unfold guardedMarks
  rw [get_ok v (by decide), ok_bind, set_ok v (by decide), ok_bind, get_ok _ (by decide), ok_bind,
    set_ok _ (by decide), ok_bind, get_ok _ (by decide), ok_bind, set_ok _ (by decide)]
  cases last <;> rfl

theorem guardedFold_ok (h : Vector UInt64 8) (v : Vector UInt64 16) :
    guardedFold h v = .ok (Vector.ofFn fun i =>
      h.get i ^^^ (v.get (i.castAdd 8) ^^^ v.get (i.addNat 8))) := by
  refine ofFnM_ok fun i => ?_
  have inside := i.isLt
  rw [get_ok h inside, ok_bind, get_ok v (by omega), ok_bind, get_ok v (by omega), ok_bind]
  rfl

/-- A block is taken in without a stray under a schedule that names its words. -/
theorem guardedCompress_ok {raw : Raw} (fit : raw.Fit) (h : Vector UInt64 8) {block : Bytes}
    (size : block.length = 128) (count : Nat) (last : Bool) :
    guardedCompress raw h (Bytes.toVector 128 block) count last =
      .ok (compress raw.tables h block count last) := by
  have words : takeBlocks 8 (Bytes.toVector 128 block).toList (Vector.replicate 16 0)
      (fun (_ : UInt64) part => Bytes.word64LE part.toList) = .ok (Bytes.words64LE 16 block) := by
    rw [Bytes.toList_toVector size, takeBlocks_ok (by decide)]
    refine congrArg Except.ok (congrArg Vector.ofFn (funext fun i => ?_))
    have inside : 8 * (i.val + 1) ≤ block.length := by omega
    rw [if_pos inside]
    exact word64LE_piece inside
  have rounds : ∀ m v, raw.rows.foldlM (guardedRound m) v =
      .ok ((raw.rows.map named).foldl (round m) v) := by
    intro m v
    rw [vector_foldlM_ok (fun row mem v => guardedRound_ok m v (fit row mem)), Vector.foldl_map]
  unfold guardedCompress
  rw [words, ok_bind, guardedMarks_ok, ok_bind, rounds, ok_bind, guardedFold_ok]
  rfl

theorem lt_of_guardedWord {m : Vector UInt64 16} {row : Vector UInt8 16} {i : Nat} {word : UInt64}
    (inside : i < 16) (read : guardedWord m row i = .ok word) :
    (row.get ⟨i, inside⟩).toNat < 16 := by
  unfold guardedWord at read
  rw [get_ok row inside, ok_bind, Guarded.get] at read
  split_ifs at read with small
  exact small

/-- A round reads all its entries, so it leaves its bounds when one of them names no word. -/
theorem fit_of_guardedRound {m v v' : Vector UInt64 16} {row : Vector UInt8 16}
    (ran : guardedRound m v row = .ok v') : ∀ entry ∈ row, entry.toNat < 16 := by
  simp only [guardedRound, bind_eq_ok] at ran
  obtain ⟨_, h0, _, h1, _, _, _, h2, _, h3, _, _, _, h4, _, h5, _, _, _, h6, _, h7, _, _,
    _, h8, _, h9, _, _, _, h10, _, h11, _, _, _, h12, _, h13, _, _, _, h14, _, h15, _⟩ := ran
  have read : ∀ i, i < 16 → ∃ word, guardedWord m row i = .ok word
    | 0, _ => ⟨_, h0⟩ | 1, _ => ⟨_, h1⟩ | 2, _ => ⟨_, h2⟩ | 3, _ => ⟨_, h3⟩
    | 4, _ => ⟨_, h4⟩ | 5, _ => ⟨_, h5⟩ | 6, _ => ⟨_, h6⟩ | 7, _ => ⟨_, h7⟩
    | 8, _ => ⟨_, h8⟩ | 9, _ => ⟨_, h9⟩ | 10, _ => ⟨_, h10⟩ | 11, _ => ⟨_, h11⟩
    | 12, _ => ⟨_, h12⟩ | 13, _ => ⟨_, h13⟩ | 14, _ => ⟨_, h14⟩ | 15, _ => ⟨_, h15⟩
    | i + 16, inside => absurd inside (Nat.not_lt.2 (Nat.le_add_left 16 i))
  intro entry mem
  obtain ⟨i, inside, rfl⟩ := Vector.getElem_of_mem mem
  obtain ⟨_, word⟩ := read i inside
  exact lt_of_guardedWord inside word

/-- **The check of the schedule is the one that is needed**: a block is taken in without a stray
exactly when every byte of the schedule names one of its words. -/
theorem guardedCompress_ok_iff {raw : Raw} {h : Vector UInt64 8} {block : Vector UInt8 128}
    {count : Nat} {last : Bool} :
    (∃ h', guardedCompress raw h block count last = .ok h') ↔ raw.Fit := by
  have rows : ∀ (m v v' : Vector UInt64 16) (rows : List (Vector UInt8 16)),
      rows.foldlM (guardedRound m) v = .ok v' → ∀ row ∈ rows, ∀ entry ∈ row, entry.toNat < 16 := by
    intro m v v' rows ran
    induction rows generalizing v with
    | nil => simp
    | cons row rest ih =>
      rw [List.foldlM_cons, bind_eq_ok] at ran
      obtain ⟨next, first, ran⟩ := ran
      exact List.forall_mem_cons.2 ⟨fit_of_guardedRound first, ih next ran⟩
  constructor
  · rintro ⟨h', ran⟩
    simp only [guardedCompress, bind_eq_ok] at ran
    obtain ⟨m, _, v, _, v', ran, _⟩ := ran
    rw [← Vector.foldlM_toList] at ran
    exact fun row mem => rows m v v' _ ran row (Vector.mem_toList_iff.2 mem)
  · intro fit
    have size : block.toList.length = 128 := Vector.length_toList
    have compressed := guardedCompress_ok fit h size count last
    rw [Bytes.toVector_toList] at compressed
    exact ⟨_, compressed⟩

theorem Progress.guardedKey_ok {raw : Raw} (fit : raw.Fit) (record : Bytes) (p : Progress) :
    p.guardedKey raw record = .ok (p.absorbKey raw.tables record) := by
  have held : raw.tables.keyBlock = raw.keyBlock.map Vector.toList := rfl
  unfold guardedKey absorbKey
  rw [held]
  cases raw.keyBlock with
  | none => rfl
  | some block =>
    have size : block.toList.length = 128 := Vector.length_toList
    have compressed := guardedCompress_ok fit p.chaining size (p.count + 128) record.isEmpty
    rw [Bytes.toVector_toList] at compressed
    dsimp only [Option.map_some]
    rw [compressed]
    rfl

theorem Progress.guardedRecord_ok {raw : Raw} (fit : raw.Fit) {record : Bytes} {p : Progress}
    {chaining : Vector UInt64 8} (absorbed : p.absorbRecord raw.tables record = .ok chaining) :
    p.guardedRecord raw record = .ok chaining := by
  have keyed : raw.tables.keyBlock.isSome = raw.keyBlock.isSome := Option.isSome_map
  have cut : bodyLength record ≤ record.length := by
    unfold bodyLength
    omega
  have short : (record.drop (bodyLength record)).length ≤ 128 := by
    rw [List.length_drop]
    unfold bodyLength
    omega
  obtain ⟨block, written, length⟩ := Bytes.write_ok (Bytes.zeros 128) 0
    (record.drop (bodyLength record)) (by rw [Bytes.length_zeros]; omega)
  rw [Bytes.length_zeros] at length
  have copied := copyInto_of_write written
  rw [Nat.zero_add] at copied
  -- Every block of the body has 128 bytes, so the schedule is all that could lead out of it.
  have absorbs : ∀ chunk ∈ Bytes.blocks 128 (record.take (bodyLength record)), ∀ p : Progress, (do
      let chaining ← guardedCompress raw p.chaining (← array 128 chunk) (p.count + 128) false
      return (⟨chaining, p.count + 128⟩ : Progress) : Guarded Progress) =
        .ok (p.absorb raw.tables chunk) := by
    intro chunk mem p
    have size := Bytes.length_of_mem_blocks mem
    rw [array_ok size, ok_bind, guardedCompress_ok fit _ size]
    rfl
  unfold absorbRecord at absorbed
  unfold guardedRecord
  rw [keyed] at absorbed
  split_ifs at absorbed with alone
  · obtain rfl := Except.ok.inj absorbed
    rw [if_pos alone]
    rfl
  · rw [if_neg alone]
    dsimp only at absorbed
    rw [written] at absorbed
    obtain rfl := Except.ok.inj absorbed
    rw [slice_ok (Nat.zero_le _) cut, ok_bind, slice_ok cut (Nat.le_refl _), ok_bind,
      List.drop_zero, List.take_length, blocks_ok (by decide), ok_bind, foldlM_ok absorbs, ok_bind,
      copied, ok_bind, array_ok length, ok_bind, guardedCompress_ok fit _ length]

/-- A record is hashed without a stray, into a buffer that is not longer than the state. -/
theorem guardedDigest_ok {raw : Raw} (fit : raw.Fit) {record state buffer : Bytes}
    (final : finalState raw.tables record = .ok state) (size : buffer.length ≤ 64) :
    guardedDigest raw record buffer = .ok (state.take buffer.length) := by
  unfold finalState at final
  dsimp only at final
  cases absorbed : ((⟨raw.tables.chaining, 0⟩ : Progress).absorbKey raw.tables
      record).absorbRecord raw.tables record with
  | error crash =>
    rw [absorbed] at final
    cases final
  | ok chaining =>
    rw [absorbed] at final
    obtain rfl := Except.ok.inj final
    unfold guardedDigest
    rw [Progress.guardedKey_ok fit, ok_bind]
    exact (congrArg (· >>= _) (Progress.guardedRecord_ok fit absorbed)).trans
      (writeLanes_ok chaining size)

/-- The rows of the schedule in a blob, byte for byte. -/
def stagedRows (staged : Bytes) : Vector (Vector UInt8 16) 12 :=
  Vector.ofFn fun r => piece 16 (staged.drop 64) r

theorem getElem_stagedRows (staged : Bytes) {r i : Nat} (row : r < 12) (inside : i < 16) :
    (stagedRows staged)[r][i] = ((staged.drop 64).take 192)[16 * r + i]?.getD 0 := by
  unfold stagedRows
  rw [Vector.getElem_ofFn, getElem_piece 16 _ _ inside, List.getElem?_take_of_lt (by omega)]

/-- The schedule is looked through as a whole or row by row. -/
theorem all_stagedRows {staged : Bytes} (long : 256 ≤ staged.length) :
    (((staged.drop 64).take 192).all (· < 16)) = true ↔
      ∀ row ∈ stagedRows staged, ∀ entry ∈ row, entry.toNat < 16 := by
  have length : ((staged.drop 64).take 192).length = 192 := by
    rw [List.length_take, List.length_drop]
    omega
  rw [List.all_eq_true]
  constructor
  · intro small row hrow entry hentry
    obtain ⟨r, hr, rfl⟩ := Vector.getElem_of_mem hrow
    obtain ⟨i, hi, rfl⟩ := Vector.getElem_of_mem hentry
    have inside : 16 * r + i < ((staged.drop 64).take 192).length := by omega
    rw [getElem_stagedRows staged hr hi, List.getElem?_eq_getElem inside, Option.getD_some]
    simpa [UInt8.lt_iff_toNat_lt] using small _ (List.getElem_mem inside)
  · intro fit byte mem
    obtain ⟨k, inside, rfl⟩ := List.getElem_of_mem mem
    have entry := fit _ (Vector.getElem_mem (by omega : k / 16 < 12)) _
      (Vector.getElem_mem (Nat.mod_lt k (by decide) : k % 16 < 16))
    rw [getElem_stagedRows, Nat.div_add_mod, List.getElem?_eq_getElem inside,
      Option.getD_some] at entry
    simpa [UInt8.lt_iff_toNat_lt] using entry

/-- The tables that a blob of one of the two lengths holds. -/
def stagedRaw (staged : Bytes) : Raw where
  initial := Bytes.words64LE 8 staged
  rows := stagedRows staged
  chaining := Bytes.words64LE 8 (staged.drop 256)
  keyBlock :=
    if staged.length = keyedLength then some (Bytes.toVector 128 (staged.drop plainLength))
    else none

theorem tables_stagedRaw (staged : Bytes) : (stagedRaw staged).tables = {
    initial := Bytes.words64LE 8 staged
    schedule := Vector.ofFn fun r => Vector.ofFn fun i =>
      Fin.ofNat 16 (((staged.drop 64).take 192)[16 * r.val + i.val]?.getD 0).toNat
    chaining := Bytes.words64LE 8 (staged.drop 256)
    keyBlock := if staged.length = keyedLength then some (staged.drop plainLength) else none } := by
  have schedule : (stagedRows staged).map named = Vector.ofFn fun r => Vector.ofFn fun i =>
      Fin.ofNat 16 (((staged.drop 64).take 192)[16 * r.val + i.val]?.getD 0).toNat := by
    refine Vector.ext fun r row => Vector.ext fun i inside => ?_
    rw [Vector.getElem_map, Vector.getElem_ofFn, Vector.getElem_ofFn, named, Vector.getElem_map,
      getElem_stagedRows staged row inside]
    rfl
  have keyBlock : (stagedRaw staged).keyBlock.map Vector.toList =
      if staged.length = keyedLength then some (staged.drop plainLength) else none := by
    unfold stagedRaw
    by_cases keyed : staged.length = keyedLength
    · rw [if_pos keyed, if_pos keyed, Option.map_some, Bytes.toList_toVector]
      rw [List.length_drop, keyed]
      rfl
    · rw [if_neg keyed, if_neg keyed]
      rfl
  unfold Raw.tables
  rw [keyBlock]
  unfold stagedRaw
  rw [schedule]

theorem load_eq (staged : Bytes) : load staged =
    if staged.length ≠ plainLength ∧ staged.length ≠ keyedLength then
      .error (.wrongLength "blake2b" staged.length plainLength keyedLength)
    else if ((staged.drop 64).take 192).all (· < 16) then .ok (stagedRaw staged).tables
    else .error (.scheduleOutOfRange "blake2b") := by
  rw [tables_stagedRaw]
  rfl

theorem slice_rest {staged : Bytes} {start : Nat} (inside : start ≤ staged.length) :
    slice staged start staged.length = .ok (staged.drop start) := by
  rw [slice_ok inside (Nat.le_refl _), List.take_length]

theorem guardedRows_eq {staged : Bytes} (long : 256 ≤ staged.length) : guardedRows staged =
    if ((staged.drop 64).take 192).all (· < 16) then pure (stagedRows staged)
    else throw (.scheduleOutOfRange "blake2b") := by
  have checked : (stagedRows staged).any (fun row => row.any (16 ≤ ·.toNat)) = true ↔
      ¬((staged.drop 64).take 192).all (· < 16) = true := by
    rw [all_stagedRows long]
    simp only [Vector.any_eq_true', decide_eq_true_eq]
    push Not
    rfl
  unfold guardedRows
  rw [slice_rest (by omega), lift_bind, readWords_ok (by decide) (by rw [List.length_drop]; omega),
    pure_bind]
  show (if (stagedRows staged).any _ = true then _ else _) = _
  by_cases small : ((staged.drop 64).take 192).all (· < 16) = true
  · rw [if_pos small, if_neg (fun found => checked.1 found small)]
    rfl
  · rw [if_neg small, if_pos (checked.2 small)]

theorem guardedKeyBlock_eq (staged : Bytes) :
    guardedKeyBlock staged = pure (stagedRaw staged).keyBlock := by
  unfold guardedKeyBlock stagedRaw
  by_cases keyed : staged.length = keyedLength
  · have length : (staged.drop plainLength).length = 128 := by
      rw [List.length_drop, keyed]
      rfl
    rw [if_pos keyed, if_pos keyed, slice_rest (by rw [keyed]; decide), lift_bind,
      readWords_ok (by decide) (Nat.le_of_eq length.symm), pure_bind, get_ok _ (by decide),
      lift_bind, get_ofFn]
    unfold piece
    rw [Nat.mul_zero, List.drop_zero, Bytes.toVector_take]
  · rw [if_neg keyed, if_neg keyed]

/-- A blob is loaded or refused without a stray. -/
theorem guardedLoad_eq (staged : Bytes) : guardedLoad staged =
    if staged.length ≠ plainLength ∧ staged.length ≠ keyedLength then
      throw (.wrongLength "blake2b" staged.length plainLength keyedLength)
    else if ((staged.drop 64).take 192).all (· < 16) then pure (stagedRaw staged)
    else throw (.scheduleOutOfRange "blake2b") := by
  unfold guardedLoad
  by_cases misfit : staged.length ≠ plainLength ∧ staged.length ≠ keyedLength
  · rw [if_pos misfit, if_pos misfit]
  · have long : 320 ≤ staged.length := by
      unfold plainLength keyedLength at misfit
      omega
    rw [if_neg misfit, if_neg misfit, readWords_ok (by decide) (by omega), pure_bind,
      guardedRows_eq (by omega)]
    by_cases small : ((staged.drop 64).take 192).all (· < 16) = true
    · rw [if_pos small, if_pos small, pure_bind, slice_rest (by omega), lift_bind,
        readWords_ok (by decide) (by rw [List.length_drop]; omega), pure_bind, guardedKeyBlock_eq,
        pure_bind, words_pieces (by omega), words_pieces (by rw [List.length_drop]; omega)]
      rfl
    · rw [if_neg small, if_neg small]
      rfl

end Blake2b

end BatchDigest
