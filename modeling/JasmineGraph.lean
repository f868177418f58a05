import JasmineGraph.Triangles.Run
import JasmineGraph.NativeStore.Allocation
import JasmineGraph.Triangles.StreamingCentral
import JasmineGraph.Kafka.InstanceStreamHandler
import JasmineGraph.Executor.DynamicCentralCount
import JasmineGraph.Executor.CompositeAggregation
import JasmineGraph.Executor.FilterPartitions
import JasmineGraph.Hdfs.StreamHandler
import JasmineGraph.Partitioner.Metadata
import JasmineGraph.Metis.Parts
import JasmineGraph.Cypher.Comparison
import JasmineGraph.Cypher.OrderBy
import JasmineGraph.Cypher.CartesianProduct
import JasmineGraph.Cypher.Distinct
import JasmineGraph.Cypher.QueryPlanner
import JasmineGraph.Cypher.ExpandAll
import JasmineGraph.Cypher.SharedBuffer
import JasmineGraph.Executor.ChunkedResult
import JasmineGraph.Instance.EgoNet
import JasmineGraph.Frontend.ExportGraph
import JasmineGraph.KnowledgeGraph.Extraction
import JasmineGraph.KnowledgeGraph.ResumeOffset
import JasmineGraph.Cypher.Create
import JasmineGraph.Scale.Scaler
import JasmineGraph.Frontend.JobScheduler
import JasmineGraph.Frontend.Admission
import JasmineGraph.Cypher.Average
import JasmineGraph.K8s.WorkerController
