import Pledge.Main
import Pledge.Proofs.Assembly.Programs
import Pledge.Proofs.Campaign.Settlement
import Pledge.Proofs.Conservation
import Pledge.Proofs.Container
import Pledge.Proofs.Campaign.Compile
import Pledge.Proofs.Aborts
import Pledge.Proofs.ControlFlow
import Pledge.Proofs.Permanence
import Pledge.Proofs.Traversal
import Pledge.Proofs.Minutes
import Pledge.Proofs.Campaign.Window
import Pledge.Proofs.Campaign.ControlPoints
import Pledge.Proofs.Campaign.Faults
import Pledge.Proofs.Campaign.Exhaustion
import Pledge.Proofs.Campaign.Limit
import Pledge.Proofs.Remnants
import Pledge.Proofs.Listing
import Pledge.Proofs.CommandLine
import Pledge.Proofs.Arguments
import Pledge.Proofs.Campaign.Slots
import Pledge.Proofs.Amounts
import Pledge.Proofs.Addresses
import Pledge.Proofs.ContainerTexts
import Pledge.Proofs.Instructions
import Pledge.Proofs.Typing
import Pledge.Proofs.Campaign.Data
import Pledge.Proofs.LabelledListing
import Pledge.Proofs.Sinks
