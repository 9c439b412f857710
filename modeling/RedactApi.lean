import RedactApi.ReadCommitted.Contract
import RedactApi.ReadCommitted.Alone
import RedactApi.ReadCommitted.Ends
import RedactApi.ReadCommitted.Sees
import RedactApi.ReadCommitted.Lockstep
import RedactApi.ReadCommitted.Obligations
import RedactApi.ReadCommitted.Deliveries
import RedactApi.Encoding
import RedactApi.Models
import RedactApi.External
import RedactApi.HashChain
import RedactApi.Json
import RedactApi.Json.Loads
import RedactApi.Rounding
import RedactApi.KeyedList
import RedactApi.DisjointSets
import RedactApi.Grouping
import RedactApi.Ranges
import RedactApi.Detection.Tier2
import RedactApi.Detection.Dedupe
import RedactApi.Luhn
import RedactApi.Regex
import RedactApi.Words
import RedactApi.Normalization
import RedactApi.Detection.Tier1
import RedactApi.Detection.Luhn
import RedactApi.Detection.FixedShapes
import RedactApi.Detection.Addresses
import RedactApi.Detection.Components
import RedactApi.Detection.Order
import RedactApi.Detection.WordBoxes
import RedactApi.Redaction.VerifyGate
import RedactApi.Redaction.NormalForm
import RedactApi.Redaction.Apply
import RedactApi.Storage.Keys
import RedactApi.Ingest.Pdf
import RedactApi.Ingest.Offsets
import RedactApi.Detection.LineBreaks
import RedactApi.Detection.OverlappingShapes
import RedactApi.Redaction.RotatedPages
import RedactApi.Redaction.Recovery
import RedactApi.Redaction.Painting
import RedactApi.Redaction.Refusals
import RedactApi.Ingest.Service
import RedactApi.Services.RedactionJob
import RedactApi.AuditChain.Payload
import RedactApi.AuditChain.TamperEvidence
import RedactApi.AuditChain.Concurrency
import RedactApi.Services.Jobs
import RedactApi.Services.Detection
import RedactApi.Services.ExportManifest
import RedactApi.AuditChain.Manifest
import RedactApi.Core.Tenants
import RedactApi.Api.Memberships
import RedactApi.Api.Organizations
import RedactApi.Api.MembershipGauge
import RedactApi.Tasks.Support
import RedactApi.Tasks.Jobs
import RedactApi.Tasks.Failures
import RedactApi.Ingest.Artifacts
import RedactApi.Api.Jobs
import RedactApi.Api.Documents
import RedactApi.Api.RoleChecks
import RedactApi.Api.Privileges
import RedactApi.Api.Listings
import RedactApi.Pipeline
import RedactApi.AuditChain.Operations
import RedactApi.Pipeline.StatusOrder
import RedactApi.Pipeline.Integrity
import RedactApi.Pipeline.Review
import RedactApi.Pipeline.BatchItems
import RedactApi.Pipeline.BatchRequests
import RedactApi.Pipeline.Lifecycle
import RedactApi.Pipeline.ExportedOnce
import RedactApi.Pipeline.EditEvidence
import RedactApi.Pipeline.ExportedManifest
import RedactApi.Pipeline.DispositionLog
import RedactApi.Pipeline.ReviewedBurn
import RedactApi.Pipeline.Redelivery
import RedactApi.Pipeline.StoredBoxes
import RedactApi.Pipeline.PageNumbers
import RedactApi.Pipeline.AcceptedReview
import RedactApi.Pipeline.AcceptedUploads
import RedactApi.Api.TenantPart
import RedactApi.Api.Noninterference
import RedactApi.Pipeline.Queue
import RedactApi.Pipeline.ExportCertificate
import RedactApi.Detection.Entities
import RedactApi.Pipeline.HitsAccounted
import RedactApi.Pipeline.NoSilentChange
import RedactApi.Pipeline.OnlyTheGateFails
import RedactApi.Pipeline.VerdictCertificate
import RedactApi.Workflow
import RedactApi.Pipeline.Cases
import RedactApi.Pipeline.PageArtifacts
