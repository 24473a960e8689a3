import SentenceSearch.Main
import SentenceSearch.SuffixTree.Check
import SentenceSearch.Proofs.Search.KeySearch
import SentenceSearch.Proofs.Search.PatternSearch
import SentenceSearch.Proofs.SuffixTree.Paths
import SentenceSearch.Proofs.SuffixTree.Endings
import SentenceSearch.Proofs.SuffixTree.Nodes
import SentenceSearch.Proofs.SuffixTree.Soundness
import SentenceSearch.Proofs.Search.Buckets
import SentenceSearch.Proofs.Search.Truncation
import SentenceSearch.Proofs.Tabular.Export
import SentenceSearch.Proofs.Search.JoinedKeys
import SentenceSearch.Proofs.Tabular.Paging
import SentenceSearch.Proofs.Pattern.Validity
import SentenceSearch.Proofs.Tabular.Stored
import SentenceSearch.Proofs.Automaton.Reachability
import SentenceSearch.Proofs.Symbol.SingleBuckets
import SentenceSearch.Proofs.Hits.Highlighting
import SentenceSearch.Proofs.Hits.Resolution
import SentenceSearch.Proofs.CommandLine.StoredTree
import SentenceSearch.Proofs.Symbol.Balance
import SentenceSearch.Proofs.Tabular.ArbitraryRows
import SentenceSearch.Proofs.Corpus.Splitting
import SentenceSearch.Proofs.Query.Variations
import SentenceSearch.Proofs.Hits.Rendering
import SentenceSearch.Proofs.Pattern.Trim
import SentenceSearch.Proofs.SuffixTree.Safety
