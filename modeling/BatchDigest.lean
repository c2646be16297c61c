import BatchDigest.Session.Run
import BatchDigest.Trial.Configured
import BatchDigest.Trial.Staging
import BatchDigest.Configuration.Reading
import BatchDigest.Kernel.Probe
import BatchDigest.Proofs.Device.Turn
import BatchDigest.Proofs.Device.Sound
import BatchDigest.Proofs.Device.Call
import BatchDigest.Proofs.Device.History
import BatchDigest.Proofs.Device.Progress
import BatchDigest.Proofs.Device.Serial
import BatchDigest.Proofs.Device.Schedule
import BatchDigest.Proofs.Device.Runs
import BatchDigest.Proofs.Kernel.Records
import BatchDigest.Proofs.Kernel.Bits
import BatchDigest.Proofs.Kernel.Blocks
import BatchDigest.Proofs.Kernel.Fips202
import BatchDigest.Proofs.Kernel.Permutation
import BatchDigest.Proofs.Kernel.Sponge
import BatchDigest.Proofs.Kernel.Rfc7693
import BatchDigest.Proofs.Kernel.Blake2b
import BatchDigest.Proofs.Kernel.Fips180
import BatchDigest.Proofs.Kernel.Words
import BatchDigest.Proofs.Kernel.Sha1
import BatchDigest.Proofs.Kernel.Sha256
import BatchDigest.Proofs.Kernel.Rfc1321
import BatchDigest.Proofs.Kernel.Sines
import BatchDigest.Proofs.Kernel.Md5
import BatchDigest.Proofs.Kernel.Rfc1319
import BatchDigest.Proofs.Kernel.Md2
import BatchDigest.Proofs.Kernel.Encoding
import BatchDigest.Proofs.Kernel.Inputs
import BatchDigest.Proofs.Kernel.Damaged
import BatchDigest.Proofs.Device.Launching
import BatchDigest.Proofs.Batch.Partition
import BatchDigest.Proofs.Batch.Results
import BatchDigest.Proofs.Device.Quiet
import BatchDigest.Proofs.Batch.Dispatch
import BatchDigest.Proofs.Device.Lease
import BatchDigest.Proofs.Batch.Custody
import BatchDigest.Proofs.Batch.Hashers
import BatchDigest.Proofs.Batch.Client
import BatchDigest.Proofs.Device.Balance
import BatchDigest.Proofs.Device.Account
import BatchDigest.Proofs.Device.Flow
import BatchDigest.Proofs.Device.Books
import BatchDigest.Proofs.Device.Stock
import BatchDigest.Proofs.Device.Demand
import BatchDigest.Proofs.Batch.Handling
import BatchDigest.Proofs.Batch.Demands
import BatchDigest.Proofs.Batch.Joining
import BatchDigest.Proofs.Batch.Roster
import BatchDigest.Proofs.Device.Inventory
import BatchDigest.Proofs.Batch.Traffic
import BatchDigest.Proofs.Batch.Conservation
import BatchDigest.Proofs.Batch.Titles
import BatchDigest.Proofs.Batch.Service
import BatchDigest.Proofs.Batch.Writers
import BatchDigest.Proofs.Batch.Rollback
import BatchDigest.Proofs.Device.Waiting
import BatchDigest.Proofs.Batch.Returns
import BatchDigest.Proofs.Batch.Room
import BatchDigest.Proofs.Batch.Apart
import BatchDigest.Proofs.Device.Entangled
import BatchDigest.Proofs.Device.Handles
import BatchDigest.Proofs.Device.Teardown
import BatchDigest.Proofs.Configuration.Accepted
import BatchDigest.Proofs.Configuration.Built
import BatchDigest.Proofs.Batch.Proportion
import BatchDigest.Proofs.Batch.Staging
import BatchDigest.Proofs.Device.Loans
import BatchDigest.Proofs.Batch.Construction
import BatchDigest.Proofs.Batch.Agreement
import BatchDigest.Proofs.Algorithm.Grammar
import BatchDigest.Proofs.Device.Lengths
import BatchDigest.Proofs.Device.Copies
import BatchDigest.Proofs.Batch.Moments
