import ServiceBindings.Client.Pages
import ServiceBindings.Generate.Files
import ServiceBindings.Generate.Memory
import ServiceBindings.Model.Load
import ServiceBindings.Proofs.Client.Outputs
import ServiceBindings.Proofs.Generate.Compiled
import ServiceBindings.Proofs.Generate.Constants
import ServiceBindings.Proofs.Generate.Defects
import ServiceBindings.Proofs.Generate.Enumeration
import ServiceBindings.Proofs.Generate.Fields
import ServiceBindings.Proofs.Generate.Files
import ServiceBindings.Proofs.Generate.Intact
import ServiceBindings.Proofs.Generate.References
import ServiceBindings.Proofs.Http.Lazy
import ServiceBindings.Proofs.Http.Source
import ServiceBindings.Proofs.Json.RoundTrip
import ServiceBindings.Proofs.Model.Inputs
import ServiceBindings.Proofs.Naming.Legal
import ServiceBindings.Proofs.Naming.SnakeCase
import ServiceBindings.Proofs.Plan.Grammar
import ServiceBindings.Proofs.Request.Accepted
import ServiceBindings.Proofs.Request.Address
import ServiceBindings.Proofs.Request.Given
import ServiceBindings.Proofs.Request.Order
import ServiceBindings.Proofs.Request.Readable
import ServiceBindings.Proofs.Response.Lists
import ServiceBindings.Proofs.Response.Payload
import ServiceBindings.Proofs.Response.Spacing
import ServiceBindings.Proofs.Text.Base64
import ServiceBindings.Proofs.Text.Blank
import ServiceBindings.Proofs.Text.Digits
import ServiceBindings.Proofs.Text.Utf8
import ServiceBindings.Proofs.Time.Calendar
import ServiceBindings.Proofs.Time.Forms
import ServiceBindings.Proofs.Value.Integers
import ServiceBindings.Proofs.Value.Validity
import ServiceBindings.Proofs.Xml.Elements
import ServiceBindings.Proofs.Xml.Groups
import ServiceBindings.Proofs.Xml.Nesting
import ServiceBindings.Proofs.Xml.Parts
import ServiceBindings.Proofs.Xml.References
import ServiceBindings.Proofs.Xml.RoundTrip
import ServiceBindings.Proofs.Xml.Written
