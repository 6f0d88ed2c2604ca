import ArmorPolicy.Severity
import ArmorPolicy.Main
import ArmorPolicy.Proofs.Rule.LoggedFile
import ArmorPolicy.Proofs.Reader.Canonical
import ArmorPolicy.Proofs.Reader.Placement
import ArmorPolicy.Proofs.Reader.RequiredHats
import ArmorPolicy.Proofs.Include.Pruning
import ArmorPolicy.Proofs.Include.Location
import ArmorPolicy.Proofs.Reader.HeaderLine
import ArmorPolicy.Proofs.Registry.Order
import ArmorPolicy.Proofs.Registry.Preamble
import ArmorPolicy.Proofs.Rule.TrailingComment
import ArmorPolicy.Proofs.Reader.Conditional
import ArmorPolicy.Proofs.Rule.PermissionString
import ArmorPolicy.Proofs.Profile.Arrangement
import ArmorPolicy.Proofs.Rule.Amount
import ArmorPolicy.Proofs.Include.Expansion
