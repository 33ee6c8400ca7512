import Zerc20.Lib.Machine
import Zerc20.Lib.HashTree
import Zerc20.Hash.Basic
import Zerc20.Hash.Poseidon
import Zerc20.Hash.Sha256
import Zerc20.Hash.Keccak
import Zerc20.Zkp.Gadgets
import Zerc20.Zkp.RootTransition
import Zerc20.Zkp.Withdraw
import Zerc20.Contracts.Token
import Zerc20.Contracts.Verifier
import Zerc20.Contracts.Chain
import Zerc20.Contracts.ProvedRoots
import Zerc20.Contracts.System
import Zerc20.Contracts.Conservation
import Zerc20.Contracts.Solvency
import Zerc20.Contracts.Hub
import Zerc20.Lib.Frames
import Zerc20.Contracts.Network
import Zerc20.Contracts.Agreement
import Zerc20.Lib.Text
import Zerc20.Zstorage.Authorization
import Zerc20.Zstorage.KeyManager
import Zerc20.Zstorage.Nonces
import Zerc20.Indexer.History
import Zerc20.Indexer.Transactions
import Zerc20.Indexer.Ingest
import Zerc20.Contracts.Moves
import Zerc20.Lib.Latest
import Zerc20.Contracts.Convergence
import Zerc20.Contracts.Freshness
import Zerc20.Crosschain.BroadcastJob
import Zerc20.Indexer.PlainTree
import Zerc20.Indexer.RootWitness
import Zerc20.Lib.SortByKey
import Zerc20.Client.MerkleProofs
import Zerc20.Client.BatchTeleport
import Zerc20.Indexer.EventSync
import Zerc20.Indexer.EventScan
import Zerc20.Indexer.EventHealing
import Zerc20.Indexer.Reorg
import Zerc20.Indexer.ReorgAgreement
import Zerc20.Indexer.HistoryWindow
import Zerc20.Contracts.WriteOnce
import Zerc20.Contracts.Runs
import Zerc20.Indexer.Lock
import Zerc20.Client.AggregationRoot
import Zerc20.Contracts.Genuine
import Zerc20.Contracts.NetworkTeleports
import Zerc20.Contracts.NetworkSolvency
import Zerc20.Crosschain.RelayJob
import Zerc20.Crosschain.Delivery
import Zerc20.Contracts.Emergency
import Zerc20.Client.NetworkRedeem
import Zerc20.Decider.Client
import Zerc20.Zstorage.Announcements
import Zerc20.Client.BurnAddress
import Zerc20.Zstorage.Scan
import Zerc20.Zstorage.Redemption
import Zerc20.Decider.Integrity
import Zerc20.Client.Events
import Zerc20.Client.Receive
import Zerc20.Client.Encodings
import Zerc20.Client.Invoice
import Zerc20.Client.InvoiceCommand
import Zerc20.Client.SparseTree
import Zerc20.Client.ProofComposition
import Zerc20.Indexer.RootJob
import Zerc20.Indexer.RootJobSafety
import Zerc20.Indexer.RootJobRuns
import Zerc20.Indexer.Reservation
import Zerc20.Indexer.ScanRanges
import Zerc20.Client.EventSearch
import Zerc20.Indexer.Capacity
import Zerc20.Client.Registrations
import Zerc20.Client.InvoiceRedemption
import Zerc20.Contracts.BroadcastValue
