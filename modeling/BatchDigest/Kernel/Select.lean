import BatchDigest.Algorithm.Basic
import BatchDigest.Kernel.Blake2b
import BatchDigest.Kernel.Keccak
import BatchDigest.Kernel.Md2
import BatchDigest.Kernel.Md5
import BatchDigest.Kernel.Sha1
import BatchDigest.Kernel.Sha256

/-!
# The kernel of an algorithm

Each algorithm has one kernel. A key matters for what is staged only: the kernel that a launch runs
is the one without a key, and finds the key in the tables.
-/

namespace BatchDigest.Algorithm

/-- The kernel of an algorithm, which stages `key` where the family takes one. -/
def keyedKernel (key : Bytes) : Algorithm → Kernel
  | md2 => Md2.kernel
  | md5 => Md5.kernel
  | sha1 => Sha1.kernel
  | sha256 => Sha256.kernel
  | keccak bits => (Keccak.firstSubmission bits).kernel
  | sha3 bits => (Keccak.standard bits).kernel
  | blake2b bits => Blake2b.kernel bits key

/-- The kernel that a launch runs. -/
def kernel (a : Algorithm) : Kernel :=
  a.keyedKernel []

/-- The table blob of an algorithm under a key. -/
def tableBlob (a : Algorithm) (key : Bytes) : Except Crash Bytes :=
  (a.keyedKernel key).blob

end BatchDigest.Algorithm
