import MyTools.Library.Bytes
import MyTools.Library.Blocks
import MyTools.Library.Buffer
import MyTools.Library.Memory
import MyTools.Library.Loop
import MyTools.Library.Limbs
import MyTools.Library.Recurrence
import MyTools.Library.Modes
import MyTools.Library.Inverse
import MyTools.Library.Halving
import MyTools.Library.Curve
import MyTools.Library.Exchange
import MyTools.Library.Run
import MyTools.Library.Tally
import MyTools.Library.Certificate
import MyTools.Library.Words
import MyTools.Library.Polynomials
import MyTools.Library.Rounds
import MyTools.Library.SignedDigits
import MyTools.Sm3.Digest
import MyTools.Sm3.Standard
import MyTools.Sm3.Streaming
import MyTools.Sm3.OneShot
import MyTools.Sm3.Extension
import MyTools.Sm4.Cipher
import MyTools.Sm4.Routines
import MyTools.Sm4.Access
import MyTools.Sm4.Chaining
import MyTools.Sm4.Feedback
import MyTools.Sm4.Codebook
import MyTools.Sm4.Schedule
import MyTools.Mpi.Number
import MyTools.Mpi.Addition
import MyTools.Mpi.Exact
import MyTools.Mpi.Shift
import MyTools.Mpi.Subtraction
import MyTools.Mpi.Multiplication
import MyTools.Mpi.Reduction
import MyTools.Mpi.Division
import MyTools.Mpi.Order
import MyTools.Mpi.Square
import MyTools.Mpi.ShiftRight
import MyTools.Mpi.ShiftLeft
import MyTools.Mpi.Codec
import MyTools.Mpi.Halves
import MyTools.Mpi.BinaryInverse
import MyTools.Mpi.Divisor
import MyTools.Mpi.Variables
import MyTools.Miracl.AesTables
import MyTools.Miracl.Aes
import MyTools.Miracl.AesSchedule
import MyTools.Miracl.AesModes
import MyTools.Miracl.Redc
import MyTools.Miracl.Residue
import MyTools.Miracl.Epoint
import MyTools.Miracl.Window
import MyTools.Miracl.Multiply
import MyTools.Miracl.JointForm
import MyTools.Miracl.MultiplyTwo
import MyTools.Sm2.Domain
import MyTools.Sm2.Miracl
import MyTools.Sm2.Hash
import MyTools.Sm2.Coordinates
import MyTools.Sm2.Hex
import MyTools.Sm2.Signature
import MyTools.Sm2.Encryption
import MyTools.Sm2.KeyStream
import MyTools.Sm2.Retry
import MyTools.Sm2.Agreement
import MyTools.Sm2.Derivation
import MyTools.Sm2.Session
import MyTools.Sm2.Staged
import MyTools.Sm2.Outcome
import MyTools.Sm2.Keys
import MyTools.Sm2.Seal
import MyTools.Sm2.Scalar
import MyTools.Sm2.Repetition
import MyTools.SocketRandom.Digest
import MyTools.SocketRandom.HashId
import MyTools.SocketRandom.Generator
import MyTools.SocketRandom.Reseed
import MyTools.SocketRandom.Mixing
import MyTools.SocketRandom.Determined
import MyTools.CapBenchmark.Model
import MyTools.CapBenchmark.Total
import MyTools.Server.Model
import MyTools.Server.Accept
import MyTools.Server.Owner
