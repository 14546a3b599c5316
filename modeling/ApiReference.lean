import ApiReference.Main
import ApiReference.Proofs.Alias.Acyclic
import ApiReference.Proofs.Alias.Circles
import ApiReference.Proofs.Alias.Cycles
import ApiReference.Proofs.Alias.Declaration
import ApiReference.Proofs.Alias.FixedPoint
import ApiReference.Proofs.Alias.Normalization
import ApiReference.Proofs.Alias.Offers
import ApiReference.Proofs.Alias.OnePass
import ApiReference.Proofs.Alias.Reload
import ApiReference.Proofs.Alias.Search
import ApiReference.Proofs.Build.Accounts
import ApiReference.Proofs.Build.ClassOrder
import ApiReference.Proofs.Build.EventLists
import ApiReference.Proofs.Command.Options
import ApiReference.Proofs.Diagnostic.Counts
import ApiReference.Proofs.Display.ReadBack
import ApiReference.Proofs.Display.Spacing
import ApiReference.Proofs.Event.Agreement
import ApiReference.Proofs.Library.Comments
import ApiReference.Proofs.Library.Descriptions
import ApiReference.Proofs.Library.Filling
import ApiReference.Proofs.Library.Grouping
import ApiReference.Proofs.Library.Lookup
import ApiReference.Proofs.Library.Steps
import ApiReference.Proofs.Member.Absorption
import ApiReference.Proofs.Member.Agreement
import ApiReference.Proofs.Member.Merging
import ApiReference.Proofs.Member.Overloads
import ApiReference.Proofs.Published.Alike
import ApiReference.Proofs.Published.Cleaning
import ApiReference.Proofs.Published.Properties
import ApiReference.Proofs.Source.Arguments
import ApiReference.Proofs.Source.EventUse
import ApiReference.Proofs.Source.Growth
import ApiReference.Proofs.Source.Held
import ApiReference.Proofs.Source.Notices
import ApiReference.Proofs.Source.Order
import ApiReference.Proofs.Source.Records
import ApiReference.Proofs.Store.Exactness
import ApiReference.Proofs.Token.Layout
import ApiReference.Proofs.Token.Lines
