import SolanaWinternitz.Infra.Walk
import SolanaWinternitz.Infra.Merkle
import SolanaWinternitz.Winternitz
import SolanaWinternitz.Xmss
import SolanaWinternitz.Properties.Chain
import SolanaWinternitz.Properties.Tree
import SolanaWinternitz.Hazmat
import SolanaWinternitz.Properties.SignVerify
import SolanaWinternitz.Properties.Hazmat
import SolanaWinternitz.Properties.HashInputs
import SolanaWinternitz.Properties.Forgery
import SolanaWinternitz.Program
import SolanaWinternitz.Properties.Ledger
import SolanaWinternitz.Signer
import SolanaWinternitz.Infra.Record
import SolanaWinternitz.Properties.FileCalls
import SolanaWinternitz.System
import SolanaWinternitz.Properties.Machine
import SolanaWinternitz.Properties.OneSignature
import SolanaWinternitz.Properties.Durability
import SolanaWinternitz.Properties.Recovery
import SolanaWinternitz.Properties.EndToEnd
import SolanaWinternitz.Properties.TargetSum
import SolanaWinternitz.Properties.NodeArray
import SolanaWinternitz.Properties.Separation
import SolanaWinternitz.Properties.CanonicalFile
import SolanaWinternitz.Properties.Attempt
import SolanaWinternitz.Properties.Retry
import SolanaWinternitz.Properties.Rollback
import SolanaWinternitz.Directory
import SolanaWinternitz.Infra.Confine
import SolanaWinternitz.Properties.Confinement
import SolanaWinternitz.Properties.Paths
import SolanaWinternitz.Infra.Js
import SolanaWinternitz.Ts.Core
import SolanaWinternitz.Ts.Hazmat
import SolanaWinternitz.Ts.SigningKey
import SolanaWinternitz.Properties.TsCore
import SolanaWinternitz.Properties.Verifiers
import SolanaWinternitz.Properties.RawSigners
import SolanaWinternitz.Properties.Reentrancy
import SolanaWinternitz.Properties.Scripts
import SolanaWinternitz.Properties.SharedFile
import SolanaWinternitz.Infra.Replace
import SolanaWinternitz.Properties.PureSigner
import SolanaWinternitz.Properties.RustServes
import SolanaWinternitz.Properties.TsServes
import SolanaWinternitz.Properties.Handover
import SolanaWinternitz.Properties.Interchange
import SolanaWinternitz.Properties.TsDisk
import SolanaWinternitz.Properties.TsLives
