import VendorSync.CommandLine.Directory
import VendorSync.Main
import VendorSync.Session
import VendorSync.Proofs.Grammar
import VendorSync.Proofs.Lexemes
import VendorSync.Proofs.Layout
import VendorSync.Proofs.Numbering
import VendorSync.Proofs.Siblings
import VendorSync.Proofs.Clauses
import VendorSync.Proofs.Counterparts
import VendorSync.Proofs.Outcomes
import VendorSync.Proofs.Rescanning
import VendorSync.Proofs.Transfer
import VendorSync.Proofs.CommentBodies
import VendorSync.Proofs.Slashes
import VendorSync.Proofs.Tidy
import VendorSync.Proofs.Joining
import VendorSync.Proofs.Versions
import VendorSync.Proofs.Json
import VendorSync.Proofs.Listing
import VendorSync.Proofs.Switches
import VendorSync.Proofs.Arguments
import VendorSync.Proofs.Modes
import VendorSync.Proofs.Repeating
import VendorSync.Proofs.Finding
import VendorSync.Proofs.Spelling
import VendorSync.Proofs.Trimming
import VendorSync.Proofs.Bytes
import VendorSync.Proofs.Turns
import VendorSync.Proofs.Cutting
import VendorSync.Proofs.Lookup
import VendorSync.Proofs.Applying
import VendorSync.Proofs.Viewing
import VendorSync.Proofs.LineStarts
import VendorSync.Proofs.Families
import VendorSync.Proofs.Remasking
