import EmailExtractor.RateLimit.Wedge
import EmailExtractor.RateLimit.Probes
import EmailExtractor.RateLimit.Watch
import EmailExtractor.RateLimit.Limiter
import EmailExtractor.Queue.Retry
import EmailExtractor.Queue.Completion
import EmailExtractor.Queue.Recording
import EmailExtractor.Queue.Announce
import EmailExtractor.Queue.Alone
import EmailExtractor.Queue.Fair
import EmailExtractor.Discovery.Homepage
import EmailExtractor.Discovery.Sitemaps
import EmailExtractor.Pipeline.Unglue
import EmailExtractor.Pipeline.Verdicts
import EmailExtractor.Pipeline.Provenance
import EmailExtractor.Pipeline.Socials
import EmailExtractor.Pipeline.Deadline
import EmailExtractor.Html.Scan
import EmailExtractor.Worker.ReadBack
import EmailExtractor.Jobs.Limit
import EmailExtractor.Jobs.ActiveTime
import EmailExtractor.Jobs.Idempotency
import EmailExtractor.Ingest.FreeProvider
import EmailExtractor.Discovery.PathScope
import EmailExtractor.Jobs.Rows
import EmailExtractor.Pipeline.Merge
import EmailExtractor.Queue.Shutdown
import EmailExtractor.Jobs.Fingerprint
import EmailExtractor.Jobs.Downloads
import EmailExtractor.Jobs.Counts
import EmailExtractor.Worker.Domains
import EmailExtractor.Ingest.FixedKeys
import EmailExtractor.Pipeline.Cloudflare
import EmailExtractor.RateLimit.KeyChanges
import EmailExtractor.Pipeline.PlainAddresses
import EmailExtractor.RateLimit.Exhaustion
import EmailExtractor.Webhook.Delivery
import EmailExtractor.Webhook.Sender
import EmailExtractor.Worker.Slots
import EmailExtractor.ProviderKeys
