import Ingress.Service.Echo
import Ingress.Session.Store
import Ingress.Proofs.Except
import Ingress.Proofs.Host.Address
import Ingress.Proofs.Host.Grammar
import Ingress.Proofs.Uri.Authority
import Ingress.Proofs.Uri.Names
import Ingress.Proofs.Uri.Reading
import Ingress.Proofs.Uri.Remainder
import Ingress.Proofs.Forwarding.Decimal
import Ingress.Proofs.Forwarding.Entry
import Ingress.Proofs.Forwarding.Lines
import Ingress.Proofs.Connection
import Ingress.Proofs.Resolution.Value
import Ingress.Proofs.Origin.Issued
import Ingress.Proofs.Origin.Render
import Ingress.Proofs.Resolution.Url
import Ingress.Proofs.Origin.Reading
import Ingress.Proofs.Origin.Injective
import Ingress.Proofs.Origin.RoundTrip
import Ingress.Proofs.Forwarding.RoundTrip
import Ingress.Proofs.Resolution.Failure
import Ingress.Proofs.Resolution.Noninterference
import Ingress.Proofs.Service.Layers
import Ingress.Proofs.Origin.Normal
import Ingress.Proofs.Resolution.Regular
import Ingress.Proofs.Resolution.Completion
import Ingress.Proofs.Resolution.HostValue
import Ingress.Proofs.Resolution.Scheme
import Ingress.Proofs.Resolution.LetterCase
import Ingress.Proofs.Resolution.Silence
import Ingress.Proofs.Resolution.Trace
import Ingress.Proofs.Service.Innermost
import Ingress.Proofs.Service.Trace
import Ingress.Proofs.Service.Transparent
import Ingress.Proofs.Session.Replay
import Ingress.Proofs.Session.Entries
import Ingress.Proofs.Session.Presence
import Ingress.Proofs.Host.Greedy
