import ToolkitContracts.Lib.Table
import ToolkitContracts.Lib.Transition
import ToolkitContracts.Lib.Network
import ToolkitContracts.Lib.Schedule
import ToolkitContracts.Lib.Drawing
import ToolkitContracts.Lib.Apportion
import ToolkitContracts.Lib.Radix
import ToolkitContracts.Lib.Codec
import ToolkitContracts.Lib.Residues
import ToolkitContracts.Lib.Noting
import ToolkitContracts.Lib.Spacing
import ToolkitContracts.Lib.Walk
import ToolkitContracts.Lib.Clearing
import ToolkitContracts.Chain.Base
import ToolkitContracts.Chain.Types
import ToolkitContracts.Chain.Contract
import ToolkitContracts.Chain.Deployment
import ToolkitContracts.Chain.Payments
import ToolkitContracts.Chain.Text
import ToolkitContracts.Chain.Views
import ToolkitContracts.Chain.Splitting
import ToolkitContracts.Chain.AssetText
import ToolkitContracts.Chain.Printing
import ToolkitContracts.Chain.Decimal
import ToolkitContracts.Chain.Key
import ToolkitContracts.Chain.Base58
import ToolkitContracts.Chain.Nft
import ToolkitContracts.Chain.Datastream
import ToolkitContracts.Vest.Model
import ToolkitContracts.Vest.Moves
import ToolkitContracts.Vest.Accounting
import ToolkitContracts.Vest.Memo
import ToolkitContracts.Vest.Schedule
import ToolkitContracts.Vest.Assertions
import ToolkitContracts.Vest.Limits
import ToolkitContracts.Vest.Family
import ToolkitContracts.Vest.Calls
import ToolkitContracts.Vest.Owed
import ToolkitContracts.Vest.Ids
import ToolkitContracts.Vest.Authority
import ToolkitContracts.Vest.Maturity
import ToolkitContracts.Vest.Fees
import ToolkitContracts.Split.Model
import ToolkitContracts.Split.Solvency
import ToolkitContracts.Split.Drain
import ToolkitContracts.Split.Shares
import ToolkitContracts.Split.Modes
import ToolkitContracts.Split.Stored
import ToolkitContracts.Split.Proportion
import ToolkitContracts.Split.Events
import ToolkitContracts.Split.Memo
import ToolkitContracts.Split.Ledger
import ToolkitContracts.Redpack.Model
import ToolkitContracts.Redpack.Moves
import ToolkitContracts.Redpack.Purge
import ToolkitContracts.Redpack.Conservation
import ToolkitContracts.Redpack.Repeat
import ToolkitContracts.Redpack.Did
import ToolkitContracts.Redpack.Draw
import ToolkitContracts.Redpack.Depletion
import ToolkitContracts.Redpack.Shares
import ToolkitContracts.Redpack.Mean
import ToolkitContracts.Redpack.Closing
import ToolkitContracts.Proxyswap.Model
import ToolkitContracts.Proxyswap.Moves
import ToolkitContracts.Proxyswap.Escrow
import ToolkitContracts.Proxyswap.Price
import ToolkitContracts.Proxyswap.Settlement
import ToolkitContracts.Proxyswap.Cancel
import ToolkitContracts.Proxyswap.Pool
import ToolkitContracts.PubkeyToken.Model
import ToolkitContracts.PubkeyToken.Moves
import ToolkitContracts.PubkeyToken.Backing
import ToolkitContracts.PubkeyToken.Checksum
import ToolkitContracts.PubkeyToken.Decoding
import ToolkitContracts.PubkeyToken.Lookup
import ToolkitContracts.PubkeyToken.Authorisation
import ToolkitContracts.PubkeyToken.Locked
import ToolkitContracts.Airdrop.Model
import ToolkitContracts.Airdrop.Moves
import ToolkitContracts.Airdrop.Payment
import ToolkitContracts.Airdrop.Whitelist
import ToolkitContracts.Airdrop.Repeat
import ToolkitContracts.Airdrop.Budget
import ToolkitContracts.Airdrop.Capacity
import ToolkitContracts.Airdrop.Numbers
import ToolkitContracts.PriceOracle.Model
import ToolkitContracts.PriceOracle.Movement
import ToolkitContracts.PriceOracle.Stores
import ToolkitContracts.PriceOracle.Band
import ToolkitContracts.PriceOracle.Drift
import ToolkitContracts.TokenSummary.Model
import ToolkitContracts.TokenSummary.Amounts
import ToolkitContracts.TokenSummary.Listing
import ToolkitContracts.TokenSummary.Refinement
import ToolkitContracts.Blindbox.Model
import ToolkitContracts.Blindbox.World
import ToolkitContracts.Blindbox.Boxes
import ToolkitContracts.Blindbox.Moves
import ToolkitContracts.Blindbox.Stored
import ToolkitContracts.Blindbox.Draws
import ToolkitContracts.Blindbox.Rejection
import ToolkitContracts.Blindbox.Agreement
import ToolkitContracts.Blindbox.Purchase
import ToolkitContracts.Blindbox.SplitPlans
import ToolkitContracts.Blindbox.Idle
import ToolkitContracts.Suite.Model
import ToolkitContracts.Suite.Memos
import ToolkitContracts.Suite.Books
import ToolkitContracts.Suite.Relays
import ToolkitContracts.Suite.Fees
import ToolkitContracts.Suite.Claims
import ToolkitContracts.Chain.Accounts
import ToolkitContracts.Faucet.Model
import ToolkitContracts.Faucet.Rate
import ToolkitContracts.Faucet.Books
import ToolkitContracts.Creator.Model
import ToolkitContracts.Creator.Openings
import ToolkitContracts.Applybp.Model
import ToolkitContracts.Applybp.History
