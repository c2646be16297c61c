import Mathlib.Data.List.FinRange
import BatchDigest.Proofs.Kernel.Bits
import BatchDigest.Proofs.Kernel.Blocks
import BatchDigest.Proofs.Kernel.Rfc1319

/-!
# The kernel of MD2 is that of RFC 1319

The document computes the checksum of the padded message first and takes blocks into the row of 48
bytes afterwards. The kernel does both block by block, in one pass over the record. Neither of the
two reads what the other one writes, so the pass falls apart into the two (`foldl_absorb`). The byte
that the document carries along the checksum is the last byte of the checksum whenever a block ends
(`sumBlock_snd`), which is where the kernel finds it again.
-/

namespace BatchDigest

namespace Md2

open Rfc1319 (Row Carried)

variable (table : Vector UInt8 256)

/-! ## One block -/

/-- The row of 48 bytes and the byte carried along it. -/
def carriedOf {n : Nat} (a : Vector UInt8 n × UInt8) : Carried n :=
  (a.1.get, a.2)

theorem carriedOf_pass (a : Vector UInt8 48 × UInt8) :
    carriedOf (pass table a) =
      (List.finRange 48).foldl (Rfc1319.roundByte (lookup table)) (carriedOf a) := by
  unfold pass
  rw [Fin.foldl_eq_finRange_foldl]
  refine (List.foldl_hom carriedOf ?_).symm
  intro a k
  unfold carriedOf Rfc1319.roundByte
  dsimp only
  rw [get_setAt]

/-- A round, with the byte that it hands to the next one. -/
def turn (a : Vector UInt8 48 × UInt8) (j : Fin 18) : Vector UInt8 48 × UInt8 :=
  ((pass table a).1, (pass table a).2 + j.val.toUInt8)

theorem carriedOf_turn (a : Vector UInt8 48 × UInt8) (j : Fin 18) :
    carriedOf (turn table a j) = Rfc1319.round (lookup table) (carriedOf a) j := by
  unfold Rfc1319.round
  rw [← carriedOf_pass]
  rfl

theorem get_stir (x : Vector UInt8 48) :
    (stir table x).get =
      ((List.finRange 18).foldl (Rfc1319.round (lookup table)) (x.get, 0)).1 := by
  have rounds : carriedOf (Fin.foldl 18 (turn table) (x, 0)) =
      (List.finRange 18).foldl (Rfc1319.round (lookup table)) (x.get, 0) := by
    rw [Fin.foldl_eq_finRange_foldl]
    exact (List.foldl_hom carriedOf fun a j => (carriedOf_turn table a j).symm).symm
  have whole : stir table x = (Fin.foldl 18 (turn table) (x, 0)).1 := rfl
  rw [whole, ← rounds]
  rfl

theorem get_takeIn (x : Vector UInt8 48) (block : Vector UInt8 16) :
    (takeIn x block).get = Rfc1319.placed x.get block.get := by
  funext i
  refine (get_ofFn _ i).trans ?_
  unfold Rfc1319.placed Fin.append Fin.addCases
  by_cases first : i.val < 16
  · have front : i.val < 32 := by omega
    rw [dif_pos first, dif_pos front]
    show _ = dite (i.val < 16) _ _
    rw [dif_pos first]
    rfl
  · rw [dif_neg first]
    by_cases second : i.val < 32
    · rw [dif_pos second, dif_pos second]
      show _ = dite (i.val < 16) _ _
      rw [dif_neg first, eq_rec_constant]
      rfl
    · rw [dif_neg second, dif_neg second, eq_rec_constant]
      rfl

/-- **The row after a block** is that of the document. -/
theorem get_absorb (state : State) (block : Vector UInt8 16) :
    (state.absorb table block).x.get =
      Rfc1319.transform (lookup table) state.x.get block.get := by
  unfold State.absorb Rfc1319.transform
  rw [get_stir, get_takeIn]

/-- The byte carried along the checksum is the last one of it when a block ends. -/
theorem sumBlock_snd (s : UInt8 → UInt8) (a : Carried 16) (block : Row 16) :
    (Rfc1319.sumBlock s a block).2 = (Rfc1319.sumBlock s a block).1 15 := by
  have each : ∀ (a : Carried 16) (j : Fin 16),
      (Rfc1319.sumByte s block a j).2 = (Rfc1319.sumByte s block a j).1 j := by
    intro a j
    unfold Rfc1319.sumByte
    dsimp only
    rw [Function.update_self]
  unfold Rfc1319.sumBlock
  rw [← Fin.foldl_eq_finRange_foldl, Fin.foldl_succ_last]
  exact each _ (Fin.last 15)

/-- A checksum and the last byte of it. -/
def summed (checksum : Vector UInt8 16) : Carried 16 :=
  (checksum.get, checksum.get (Fin.last 15))

/-- One byte of the checksum of a block. -/
def sumByte (block : Vector UInt8 16) (a : Vector UInt8 16 × UInt8) (j : Fin 16) :
    Vector UInt8 16 × UInt8 :=
  let byte := a.1.get j ^^^ lookup table (block.get j ^^^ a.2)
  (Bytes.setAt a.1 j byte, byte)

/-- **The checksum after a block** is that of the document. -/
theorem summed_sum (checksum block : Vector UInt8 16) :
    summed (sum table checksum block) =
      Rfc1319.sumBlock (lookup table) (summed checksum) block.get := by
  have bytes : carriedOf (Fin.foldl 16 (sumByte table block) (checksum, checksum.get 15)) =
      Rfc1319.sumBlock (lookup table) (summed checksum) block.get := by
    rw [Fin.foldl_eq_finRange_foldl]
    refine (List.foldl_hom carriedOf ?_).symm
    intro a j
    unfold carriedOf Rfc1319.sumByte sumByte
    dsimp only
    rw [get_setAt]
  have whole : sum table checksum block =
      (Fin.foldl 16 (sumByte table block) (checksum, checksum.get 15)).1 := rfl
  have row : (sum table checksum block).get =
      (Rfc1319.sumBlock (lookup table) (summed checksum) block.get).1 := by
    rw [whole, ← bytes]
    rfl
  unfold summed
  rw [row]
  exact Prod.ext rfl (sumBlock_snd _ _ _).symm

/-! ## One pass, and two one after the other -/

/-- **The pass falls apart.** Row and checksum after some blocks are those of two passes over
them. -/
theorem foldl_absorb (state : State) (blocks : List (Vector UInt8 16)) :
    (blocks.foldl (State.absorb table) state).x.get =
        (blocks.map Vector.get).foldl (Rfc1319.transform (lookup table)) state.x.get ∧
      summed (blocks.foldl (State.absorb table) state).checksum =
        (blocks.map Vector.get).foldl (Rfc1319.sumBlock (lookup table))
          (summed state.checksum) := by
  induction blocks generalizing state with
  | nil => exact ⟨rfl, rfl⟩
  | cons block blocks ih =>
    obtain ⟨row, checksum⟩ := ih (state.absorb table block)
    rw [get_absorb] at row
    have summed := summed_sum table state.checksum block
    rw [List.map_cons, List.foldl_cons, List.foldl_cons, List.foldl_cons, ← summed]
    exact ⟨row, checksum⟩

/-! ## The blocks of the message -/

/-- The rows of a text are its blocks. -/
theorem blocks_eq (text : Bytes) :
    Rfc1319.blocks text = (Bytes.blocks 16 text).map fun block => (block.toVector 16).get := by
  unfold Rfc1319.blocks Bytes.blocks
  rw [Bytes.pieces_eq_map, List.map_map]
  refine congrArg (List.map · _) (funext ?_)
  intro i
  funext j
  unfold Bytes.toVector
  dsimp only [Function.comp_apply]
  rw [get_ofFn, List.getElem?_take_of_lt j.isLt, List.getElem?_drop, List.getD_eq_getElem?_getD,
    Nat.mul_comm]

/-- The last block is what is left of the record, padded as the document has it. -/
theorem lastBlock_eq (record : Bytes) :
    ∃ last, lastBlock (Bytes.tail 16 record) = .ok last ∧ last.length = 16 ∧
      Bytes.blocks 16 (Rfc1319.padded record) = Bytes.blocks 16 record ++ [last] := by
  have rest := Bytes.length_tail 16 record
  have short := Bytes.length_tail_lt (by decide : 0 < 16) record
  unfold lastBlock Rfc1319.padded
  dsimp only
  rw [← rest, Bytes.blocks_append (by decide)]
  generalize Bytes.tail 16 record = front at *
  have parts : List.replicate 16 (16 - front.length).toUInt8 =
      [] ++ List.replicate front.length (16 - front.length).toUInt8 ++
        List.replicate (16 - front.length) (16 - front.length).toUInt8 := by
    rw [List.nil_append, List.replicate_append_replicate, Nat.add_sub_cancel' (Nat.le_of_lt short)]
  have size : (front ++ List.replicate (16 - front.length) (16 - front.length).toUInt8).length =
      16 := by
    rw [List.length_append, List.length_replicate]
    omega
  refine ⟨_, ?_, size, ?_⟩
  · rw [parts]
    exact Bytes.write_append List.length_replicate
  · rw [← Bytes.blocks_of_length (by decide) size]

theorem dvd_length_padded (message : Bytes) : 16 ∣ (Rfc1319.padded message).length := by
  unfold Rfc1319.padded
  dsimp only
  rw [List.length_append, List.length_replicate]
  omega

theorem blocks_extended (s : UInt8 → UInt8) (message : Bytes) :
    Rfc1319.blocks (Rfc1319.extended s message) =
      Rfc1319.blocks (Rfc1319.padded message) ++
        [Rfc1319.checksum s (Rfc1319.padded message)] := by
  unfold Rfc1319.extended
  rw [blocks_eq, blocks_eq, Bytes.blocks_append_block (by decide) (dvd_length_padded message)
    List.length_ofFn, List.map_append]
  refine congrArg (_ ++ [·]) ?_
  funext j
  unfold Bytes.toVector
  dsimp only
  rw [get_ofFn, List.getElem?_ofFn, dif_pos j.isLt]
  rfl

/-- The state after the padded message. -/
def messageState (record : Bytes) : State :=
  ((Bytes.blocks 16 (Rfc1319.padded record)).map (Bytes.toVector 16)).foldl (State.absorb table)
    State.start

/-- What a record leaves is the state after its message, with its own checksum taken in. -/
theorem finalState_ok_messageState (record : Bytes) :
    finalState table record =
      .ok (((messageState table record).absorb table
        (messageState table record).checksum).x.toList.take 16) := by
  obtain ⟨last, closed, _, parts⟩ := lastBlock_eq record
  have message : messageState table record =
      ((Bytes.blocks 16 record).foldl
        (fun state block => state.absorb table (block.toVector 16)) State.start).absorb table
          (last.toVector 16) := by
    unfold messageState
    rw [parts, List.foldl_map, List.foldl_append]
    rfl
  unfold finalState
  dsimp only
  rw [closed, message]
  rfl

/-- Row and checksum after the padded message are those that the document computes one after the
other. -/
theorem get_messageState (record : Bytes) :
    (messageState table record).x.get =
        (Rfc1319.blocks (Rfc1319.padded record)).foldl (Rfc1319.transform (lookup table))
          (fun _ => 0) ∧
      (messageState table record).checksum.get =
        Rfc1319.checksum (lookup table) (Rfc1319.padded record) := by
  have zeros : ∀ (n : Nat), (Vector.replicate n (0 : UInt8)).get = fun _ => 0 := by
    intro n
    funext i
    exact Vector.getElem_replicate i.isLt
  have rows : Rfc1319.blocks (Rfc1319.padded record) =
      ((Bytes.blocks 16 (Rfc1319.padded record)).map (Bytes.toVector 16)).map Vector.get := by
    rw [blocks_eq, List.map_map]
    rfl
  obtain ⟨row, checksum⟩ := foldl_absorb table State.start
    ((Bytes.blocks 16 (Rfc1319.padded record)).map (Bytes.toVector 16))
  have start : summed State.start.checksum = (fun _ => 0, 0) := Prod.ext (zeros 16) rfl
  have front : State.start.x.get = fun _ => 0 := zeros 48
  rw [start, ← rows] at checksum
  rw [front, ← rows] at row
  exact ⟨row, congrArg Prod.fst checksum⟩

/-- **The state that a record leaves** is the hash with the substitution of the table. -/
theorem finalState_eq (record : Bytes) :
    finalState table record = .ok (Rfc1319.hash (lookup table) record) := by
  obtain ⟨row, checksum⟩ := get_messageState table record
  have hash : Rfc1319.hash (lookup table) record = List.ofFn fun j : Fin 16 =>
      ((messageState table record).absorb table (messageState table record).checksum).x.get
        (j.castLE (by decide)) := by
    unfold Rfc1319.hash
    dsimp only
    rw [blocks_extended, List.foldl_append, get_absorb, row, checksum]
    rfl
  rw [finalState_ok_messageState, hash]
  generalize ((messageState table record).absorb table (messageState table record).checksum).x = x
  refine congrArg Except.ok (List.ext_getElem ?_ ?_)
  · rw [List.length_take, Vector.length_toList, List.length_ofFn]
    rfl
  · intro i inFront inThird
    rw [List.getElem_take, Vector.getElem_toList, List.getElem_ofFn]
    rfl

/-! ## The staged table -/

theorem lookup_substitution : lookup substitution = Rfc1319.piSubst := by
  have same : substitution.toList = Rfc1319.piTable := by decide +kernel
  funext byte
  have inside : byte.toNat < substitution.toList.length := by
    rw [Vector.length_toList]
    exact byte.toNat_lt
  unfold Rfc1319.piSubst
  rw [← same, List.getD_eq_getElem _ _ inside, Vector.getElem_toList]
  rfl

/-- What is staged is loaded as the table. -/
theorem load_blob : ∃ staged, kernel.blob = .ok staged ∧ load staged = .ok substitution := by
  refine ⟨substitution.toList, rfl, ?_⟩
  unfold load
  rw [Vector.length_toList, if_pos (Nat.le_refl 256)]
  refine congrArg Except.ok (Vector.ext ?_)
  intro i inside
  unfold Bytes.toVector
  rw [Vector.getElem_ofFn, List.getElem?_eq_getElem (by rwa [Vector.length_toList]),
    Vector.getElem_toList]
  rfl

end Md2

/-- **The kernel of MD2 is that of RFC 1319**, whatever the table, and MD2 with the table that it
stages. -/
theorem digest_eq_md2 (record : Bytes) :
    (∀ table : Vector UInt8 256, Algorithm.md2.kernel.digest table record =
      .ok (Rfc1319.hash (fun byte => table.get ⟨byte.toNat, byte.toNat_lt⟩) record)) ∧
    ∃ blob table, Algorithm.md2.tableBlob [] = .ok blob ∧
      Algorithm.md2.kernel.load blob = .ok table ∧
      Algorithm.md2.kernel.digest table record = .ok (Rfc1319.md2 record) := by
  have digest : ∀ table : Vector UInt8 256, Md2.kernel.digest table record =
      .ok (Rfc1319.hash (Md2.lookup table) record) := by
    intro table
    refine Kernel.digest_eq_state (k := Md2.kernel) (Md2.finalState_eq table record) ?_
    exact List.length_ofFn
  obtain ⟨blob, staged, loaded⟩ := Md2.load_blob
  refine ⟨digest, blob, Md2.substitution, staged, loaded, ?_⟩
  refine (digest Md2.substitution).trans ?_
  rw [Md2.lookup_substitution]
  rfl

end BatchDigest
