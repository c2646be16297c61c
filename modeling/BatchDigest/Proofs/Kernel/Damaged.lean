import BatchDigest.Proofs.Kernel.GuardedLanes

/-!
# Damaged tables

What is staged can be cut short, extended or overwritten. A kernel either refuses such a blob, or it
hashes every record under it: what it digests is not what the algorithm digests, but no access
leaves its bounds, and every byte of the buffer is written. For MD2, SHA-256 and the sponges the
length of the blob is all that counts; for BLAKE2b its schedule has to name words of a block as well
(`Kernel.withstands_damage`).
-/

namespace BatchDigest

/-- Loads staged tables and hashes a record under them into a buffer, with bounds. -/
def Guarded.hash {T : Type} (load : Bytes → Loading T) (digest : T → Bytes → Bytes → Guarded Bytes)
    (staged record buffer : Bytes) : Loading Bytes := do
  digest (← load staged) record buffer

namespace Kernel

/-- **A kernel withstands damaged tables.** `accepts` says which blobs are tables for it, and `hash`
is what it does with every access checked. -/
structure Withstands (k : Kernel) (accepts : Bytes → Prop)
    (hash : Bytes → Bytes → Bytes → Loading Bytes) : Prop where
  /-- The blobs that it loads. -/
  load_iff : ∀ staged, (∃ tables, k.load staged = .ok tables) ↔ accepts staged
  /-- It refuses the others before it reads a record, and without a stray. -/
  refuses : ∀ staged refusal, k.load staged = .error refusal →
    ∀ record buffer, hash staged record buffer = throw refusal
  /-- Under tables that it loads it digests every record without a stray. The digest fills a buffer
  of its size, whatever that held. -/
  digests : ∀ staged tables, k.load staged = .ok tables → ∀ record,
    ∃ digest : Bytes, digest.length = k.digestSize ∧ k.digest tables record = .ok digest ∧
      ∀ buffer : Bytes, buffer.length = k.digestSize →
        k.digestInto tables record buffer = .success digest ∧
          hash staged record buffer = pure digest

/-- Whatever is behind the first bytes of a blob does not matter. -/
def LoadsFront (k : Kernel) (size : Nat) : Prop :=
  ∀ staged more : Bytes, size ≤ staged.length → k.load (staged ++ more) = k.load staged

variable {k : Kernel} {accepts : Bytes → Prop} {T : Type} {load : Bytes → Loading T}
  {digest : T → Bytes → Bytes → Guarded Bytes}

/-- A kernel whose accesses are checked, with the tables it loads in a form of their own. -/
theorem Withstands.of_guarded (load_iff : ∀ staged, (∃ tables, k.load staged = .ok tables) ↔
      accepts staged)
    (refused : ∀ staged refusal, k.load staged = .error refusal → load staged = throw refusal)
    (loaded : ∀ staged tables, k.load staged = .ok tables → ∃ held, load staged = pure held ∧
      ∀ record, ∃ state, k.finalState tables record = .ok state ∧ k.digestSize ≤ state.length ∧
        ∀ buffer : Bytes, buffer.length = k.digestSize →
          digest held record buffer = .ok (state.take k.digestSize)) :
    k.Withstands accepts (Guarded.hash load digest) where
  load_iff := load_iff
  refuses staged refusal refusal' record buffer := by
    unfold Guarded.hash
    rw [refused staged refusal refusal']
    rfl
  digests staged tables tables' record := by
    obtain ⟨held, held', digests⟩ := loaded staged tables tables'
    obtain ⟨state, final, long, written⟩ := digests record
    have digested := digest_ok final long
    refine ⟨_, ?_, digested, fun buffer size => ⟨digestInto_of_digest_eq_ok digested size, ?_⟩⟩
    · rw [List.length_take, Nat.min_eq_left long]
    · unfold Guarded.hash
      rw [held', pure_bind, written buffer size]
      rfl

/-- A kernel that loads every blob which is long enough. -/
theorem Withstands.of_length {n : Nat} {load : Bytes → Loading k.Tables}
    {digest : k.Tables → Bytes → Bytes → Guarded Bytes}
    (load_iff : ∀ staged, (∃ tables, k.load staged = .ok tables) ↔ n ≤ staged.length)
    (same : ∀ staged, (load staged).run = .ok (k.load staged))
    (digests : ∀ tables record, ∃ state, k.finalState tables record = .ok state ∧
      k.digestSize ≤ state.length ∧ ∀ buffer : Bytes, buffer.length = k.digestSize →
        digest tables record buffer = .ok (state.take k.digestSize)) :
    k.Withstands (n ≤ ·.length) (Guarded.hash load digest) := by
  refine .of_guarded load_iff (fun staged refusal refused => ?_)
    (fun staged tables loaded => ⟨tables, ?_, digests tables⟩)
  · have ran := same staged
    rw [refused] at ran
    exact ran
  · have ran := same staged
    rw [loaded] at ran
    exact ran

end Kernel

/-- A test of the length is passed by the blobs that are long enough. -/
private theorem exists_ok_iff {T : Type} {n : Nat} {decode : Bytes → T} {refuse : Bytes → LoadError}
    (staged : Bytes) : (∃ tables, (if n ≤ staged.length then .ok (decode staged)
      else .error (refuse staged) : Except LoadError T) = .ok tables) ↔ n ≤ staged.length := by
  constructor
  · rintro ⟨tables, loaded⟩
    split_ifs at loaded with long
    exact long
  · exact fun long => ⟨_, if_pos long⟩

/-! ## Tables of one length -/

theorem Md2.withstands :
    Md2.kernel.Withstands (256 ≤ ·.length) (Guarded.hash Md2.guardedLoad Md2.guardedDigest) := by
  refine .of_length exists_ok_iff Md2.guardedLoad_eq fun table record => ?_
  obtain ⟨state, final, length⟩ := Md2.finalState_ok table record
  exact ⟨state, final, Nat.le_of_eq length.symm, fun buffer size => Md2.guardedDigest_ok final size⟩

theorem Sha256.withstands : Sha256.kernel.Withstands (288 ≤ ·.length)
    (Guarded.hash Sha256.guardedLoad Sha256.guardedDigest) := by
  refine .of_length exists_ok_iff Sha256.guardedLoad_eq fun tables record => ?_
  obtain ⟨state, final, length⟩ := Sha256.finalState_ok tables record
  exact ⟨state, final, Nat.le_of_eq length.symm,
    fun buffer size => Sha256.guardedDigest_ok final size⟩

theorem Keccak.Sponge.withstands {s : Keccak.Sponge} (small : 2 * s.digestSize < 200) :
    s.kernel.Withstands (192 ≤ ·.length) (Guarded.hash Keccak.guardedLoad s.guardedDigest) := by
  refine .of_length exists_ok_iff Keccak.guardedLoad_eq fun constants record => ?_
  obtain ⟨state, final, length⟩ := Keccak.finalState_ok small constants record
  refine ⟨state, final, ?_, fun buffer size => s.guardedDigest_ok small final size⟩
  show s.digestSize ≤ state.length
  omega

/-! ## What is behind the tables -/

namespace Guarded

/-- A piece of the front is not changed by what follows. -/
theorem piece_append {size i : Nat} {bytes : Bytes} (inside : size * (i + 1) ≤ bytes.length)
    (more : Bytes) : piece size (bytes ++ more) i = piece size bytes i := by
  rw [Nat.mul_succ] at inside
  unfold piece
  rw [List.drop_append_of_le_length (by omega),
    List.take_append_of_le_length (by rw [List.length_drop]; omega)]

theorem words32LE_append {n : Nat} {bytes : Bytes} (long : 4 * n ≤ bytes.length) (more : Bytes) :
    Bytes.words32LE n (bytes ++ more) = Bytes.words32LE n bytes := by
  refine congrArg Vector.ofFn (funext fun i => ?_)
  have inside : 4 * (i.val + 1) ≤ bytes.length := by omega
  rw [← word32LE_piece (by rw [List.length_append]; omega), piece_append inside,
    word32LE_piece inside]

theorem words64LE_append {n : Nat} {bytes : Bytes} (long : 8 * n ≤ bytes.length) (more : Bytes) :
    Bytes.words64LE n (bytes ++ more) = Bytes.words64LE n bytes := by
  refine congrArg Vector.ofFn (funext fun i => ?_)
  have inside : 8 * (i.val + 1) ≤ bytes.length := by omega
  rw [← word64LE_piece (by rw [List.length_append]; omega), piece_append inside,
    word64LE_piece inside]

end Guarded

/-- A blob that goes on behind the tables is decoded as the tables are. -/
private theorem loadsFront_of_decode {k : Kernel} {n : Nat} {decode : Bytes → k.Tables}
    (long : ∀ staged : Bytes, n ≤ staged.length → k.load staged = .ok (decode staged))
    (same : ∀ staged more : Bytes, n ≤ staged.length → decode (staged ++ more) = decode staged) :
    k.LoadsFront n := by
  intro staged more enough
  rw [long staged enough, long _ (by rw [List.length_append]; omega), same staged more enough]

theorem Md2.loadsFront : Md2.kernel.LoadsFront 256 := by
  refine loadsFront_of_decode (fun staged long => if_pos long) fun staged more long => ?_
  rw [← Bytes.toVector_take, List.take_append_of_le_length long, Bytes.toVector_take]

theorem Sha256.loadsFront : Sha256.kernel.LoadsFront 288 := by
  refine loadsFront_of_decode (fun staged long => if_pos long) fun staged more long => ?_
  rw [List.drop_append_of_le_length (by omega), Guarded.words32LE_append (by omega),
    Guarded.words32LE_append (by rw [List.length_drop]; omega)]

theorem Keccak.Sponge.loadsFront (s : Keccak.Sponge) : s.kernel.LoadsFront 192 :=
  loadsFront_of_decode (fun _ long => if_pos long) fun _ more long =>
    Guarded.words64LE_append long more

/-! ## Tables with a schedule -/

namespace Blake2b

/-- A blob of one of the two lengths, whose schedule names words of a block. -/
def Accepts (staged : Bytes) : Prop :=
  (staged.length = 320 ∨ staged.length = 448) ∧
    ∀ entry ∈ (staged.drop 64).take 192, entry.toNat < 16

theorem load_iff (staged : Bytes) : (∃ tables, load staged = .ok tables) ↔ Accepts staged := by
  have length : ¬(staged.length ≠ plainLength ∧ staged.length ≠ keyedLength) ↔
      staged.length = 320 ∨ staged.length = 448 := by
    unfold plainLength keyedLength
    omega
  have schedule : ((staged.drop 64).take 192).all (· < 16) = true ↔
      ∀ entry ∈ (staged.drop 64).take 192, entry.toNat < 16 := by
    simp only [List.all_eq_true, decide_eq_true_eq, UInt8.lt_iff_toNat_lt]
    rfl
  rw [load_eq]
  unfold Accepts
  rw [← length, ← schedule]
  split_ifs with misfit small
  · exact ⟨fun ⟨_, loaded⟩ => (by cases loaded), fun accepted => absurd misfit accepted.1⟩
  · exact ⟨fun _ => ⟨misfit, small⟩, fun _ => ⟨_, rfl⟩⟩
  · exact ⟨fun ⟨_, loaded⟩ => (by cases loaded), fun accepted => absurd accepted.2 small⟩

theorem withstands {bits : Nat} (small : bits ≤ 512) (key : Bytes) :
    (kernel bits key).Withstands Accepts (Guarded.hash guardedLoad guardedDigest) := by
  refine .of_guarded load_iff (fun staged refusal refused => ?_) (fun staged tables loaded => ?_)
  · change load staged = _ at refused
    rw [load_eq] at refused
    rw [guardedLoad_eq]
    split_ifs at refused ⊢ with misfit fit
    · rw [Except.error.inj refused]
    · rw [Except.error.inj refused]
  · change load staged = _ at loaded
    rw [load_eq] at loaded
    split_ifs at loaded with misfit small'
    obtain rfl := Except.ok.inj loaded
    have long : 256 ≤ staged.length := by
      unfold plainLength keyedLength at misfit
      omega
    have fit : (stagedRaw staged).Fit := (all_stagedRows long).1 small'
    refine ⟨stagedRaw staged, ?_, fun record => ?_⟩
    · rw [guardedLoad_eq, if_neg misfit, if_pos small']
    · obtain ⟨state, final, length⟩ := finalState_ok (stagedRaw staged).tables record
      have size : (kernel bits key).digestSize ≤ 64 := by
        show bits / 8 ≤ 64
        omega
      refine ⟨state, final, by omega, fun buffer same => ?_⟩
      rw [← same]
      exact guardedDigest_ok fit final (by omega)

end Blake2b

/-- **Damaged tables cannot crash a kernel.** MD2, SHA-256 and the sponges load every blob that is
as long as their tables, and whatever is behind those does not matter. BLAKE2b loads the blobs of
its two lengths whose schedule names words of a block. Under a blob that it loads, each kernel
digests every record without an access out of bounds, into a buffer of its digest size, and the
digest takes the place of all bytes of the buffer, whatever they were. -/
theorem Kernel.withstands_damage :
    (Md2.kernel.Withstands (256 ≤ ·.length) (Guarded.hash Md2.guardedLoad Md2.guardedDigest) ∧
      Md2.kernel.LoadsFront 256) ∧
    (Sha256.kernel.Withstands (288 ≤ ·.length)
        (Guarded.hash Sha256.guardedLoad Sha256.guardedDigest) ∧
      Sha256.kernel.LoadsFront 288) ∧
    (∀ s ∈ Algorithm.keccakWidths.map Keccak.firstSubmission ++
        Algorithm.sha3Widths.map Keccak.standard,
      s.kernel.Withstands (192 ≤ ·.length) (Guarded.hash Keccak.guardedLoad s.guardedDigest) ∧
        s.kernel.LoadsFront 192) ∧
    (∀ bits, (Algorithm.blake2b bits).isSupported = true → ∀ key,
      (Blake2b.kernel bits key).Withstands Blake2b.Accepts
        (Guarded.hash Blake2b.guardedLoad Blake2b.guardedDigest)) := by
  refine ⟨⟨Md2.withstands, Md2.loadsFront⟩, ⟨Sha256.withstands, Sha256.loadsFront⟩, ?_, ?_⟩
  · intro s mem
    have small : 2 * s.digestSize < 200 := by
      revert s
      decide
    exact ⟨s.withstands small, s.loadsFront⟩
  · intro bits supported key
    have small : bits ≤ 512 := by
      simp only [Algorithm.isSupported, Bool.and_eq_true, decide_eq_true_eq] at supported
      omega
    exact Blake2b.withstands small key

end BatchDigest
