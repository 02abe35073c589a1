import HttpServer.Admission.Tasks
import HttpServer.Connection.InPlace
import HttpServer.Connection.Stage
import HttpServer.Exchange
import HttpServer.Main
import HttpServer.Path.Encoding
import HttpServer.Path.InPlace
import HttpServer.Path.Segments
import HttpServer.Proofs.ApiRequests
import HttpServer.Proofs.CheckedConnection
import HttpServer.Proofs.Confinement
import HttpServer.Proofs.ContentType
import HttpServer.Proofs.Dispatch
import HttpServer.Proofs.Echo
import HttpServer.Proofs.Exchange
import HttpServer.Proofs.Fields
import HttpServer.Proofs.Fill
import HttpServer.Proofs.FramingLines
import HttpServer.Proofs.HeadLines
import HttpServer.Proofs.HeadText
import HttpServer.Proofs.InPlace
import HttpServer.Proofs.Lookup
import HttpServer.Proofs.NormalForms
import HttpServer.Proofs.Offences
import HttpServer.Proofs.Percent
import HttpServer.Proofs.Replies
import HttpServer.Proofs.RequestSize
import HttpServer.Proofs.Reservation
import HttpServer.Proofs.Server
import HttpServer.Proofs.Stage
import HttpServer.Proofs.Storage
import HttpServer.Proofs.Streaming
import HttpServer.Proofs.Tasks
import HttpServer.Proofs.Traffic
import HttpServer.Proofs.Transcript
import HttpServer.Proofs.Transmission
import HttpServer.Proofs.Writes
import HttpServer.Reply
import HttpServer.Request.Target
import HttpServer.Request.Text
import HttpServer.Sending.Calls
import HttpServer.Traffic
import HttpServer.Transcript
import HttpServer.Tree.Lookup
