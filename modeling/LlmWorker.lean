import LlmWorker.Lib.Transition
import LlmWorker.Lib.Interleaving
import LlmWorker.Lib.Amid
import LlmWorker.Providers.Bedrock
import LlmWorker.Providers.Forbidden
import LlmWorker.Providers.Translation
import LlmWorker.Providers.Classification
import LlmWorker.Providers.Transparency
import LlmWorker.Providers.Learning
import LlmWorker.Providers.Routing
import LlmWorker.Providers.Cooldown
import LlmWorker.Dialects
import LlmWorker.Nulls
import LlmWorker.Canonical
import LlmWorker.Logging
import LlmWorker.Startup
import LlmWorker.Executor.Containment
import LlmWorker.Executor.Earned
import LlmWorker.Executor.Hanging
import LlmWorker.Service.Coverage
import LlmWorker.Service.Abort
import LlmWorker.Service.Recovery
import LlmWorker.Service.Retries
import LlmWorker.Providers.Stored
import LlmWorker.Service.Passes
import LlmWorker.Service.Stopping
import LlmWorker.Service.Chunks
import LlmWorker.Service.Paging
import LlmWorker.Service.Provenance
import LlmWorker.Service.Envelopes
import LlmWorker.Service.Ending
import LlmWorker.Service.Shutdown
import LlmWorker.Service.Draining
import LlmWorker.Service.Reported
import LlmWorker.Licenses.Gates
import LlmWorker.Licenses.Drift
import LlmWorker.Licenses.Texts
import LlmWorker.Licenses.Reading
import LlmWorker.Licenses.Beside
import LlmWorker.Licenses.Generation
import LlmWorker.Licenses.Inventory
