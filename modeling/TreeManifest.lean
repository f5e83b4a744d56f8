import TreeManifest.Main
import TreeManifest.Proofs.Collection
import TreeManifest.Proofs.Documentation.Account
import TreeManifest.Proofs.Documentation.Disclosure
import TreeManifest.Proofs.Documentation.Requests
import TreeManifest.Proofs.Documentation.Rerun
import TreeManifest.Proofs.Listing.Limit
import TreeManifest.Proofs.Listing.Admission
import TreeManifest.Proofs.Listing.Order
import TreeManifest.Proofs.Documentation.Coverage
import TreeManifest.Proofs.Documentation.Independence
import TreeManifest.Proofs.Documentation.Ledger
import TreeManifest.Proofs.Listing.Survival
import TreeManifest.Proofs.Provider.Stream
import TreeManifest.Proofs.LogSetup
import TreeManifest.Proofs.CommandLine.Endings
import TreeManifest.Proofs.Source.Accounts
import TreeManifest.Proofs.Documentation.Levels
import TreeManifest.Proofs.CommandLine.Keys
import TreeManifest.Proofs.Prompt.Decoding
import TreeManifest.Proofs.Provider.Retry
import TreeManifest.Proofs.Documentation.Refusal
import TreeManifest.Proofs.FirstLevel.Exact
import TreeManifest.Proofs.Prompt.Rescope
import TreeManifest.Proofs.Manifest
import TreeManifest.Proofs.Provider.Pricing
import TreeManifest.Proofs.Description.CleanLine
import TreeManifest.Proofs.Description.DocComment
import TreeManifest.Proofs.Description.Package
import TreeManifest.Proofs.Description.LineEnds
import TreeManifest.Proofs.Description.Title
import TreeManifest.Proofs.Source.WellFormed
import TreeManifest.Proofs.Source.Order
import TreeManifest.Proofs.Source.Wrapping
import TreeManifest.Proofs.Source.Naming
import TreeManifest.Proofs.Source.Groups
import TreeManifest.Proofs.Source.Members
import TreeManifest.Proofs.Source.Docstring
import TreeManifest.Proofs.Documentation.Placement
import TreeManifest.Proofs.Source.Caching
import TreeManifest.Proofs.Description.EmptyComment
