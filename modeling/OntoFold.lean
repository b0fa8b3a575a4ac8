import OntoFold.Dependency.Dot
import OntoFold.Folding.Run
import OntoFold.Ontology.Diff
import OntoFold.Options.Document
import OntoFold.Proofs.Codec.Parts
import OntoFold.Proofs.Codec.Assembly
import OntoFold.Proofs.Codec.Faithful
import OntoFold.Proofs.Arena.Occupancy
import OntoFold.Proofs.Forest.Layout
import OntoFold.Proofs.Arena.Representation
import OntoFold.Proofs.Arena.Growth
import OntoFold.Proofs.Arena.Encoding
import OntoFold.Proofs.Arena.Removal
import OntoFold.Proofs.Arena.Replacement
import OntoFold.Proofs.Rewriting.Terms
import OntoFold.Proofs.Rewriting.Labels
import OntoFold.Proofs.Rewriting.Merging
import OntoFold.Proofs.Rewriting.Refreshing
import OntoFold.Proofs.Order.Grouping
import OntoFold.Proofs.Arena.Ancestors
import OntoFold.Proofs.Rewriting.Splicing
import OntoFold.Proofs.Rewriting.Replacing
import OntoFold.Proofs.Rewriting.Substitution
import OntoFold.Proofs.Rewriting.Sequences
import OntoFold.Proofs.Rewriting.Simultaneous
import OntoFold.Proofs.Order.Entries
import OntoFold.Proofs.Rewriting.Names
import OntoFold.Proofs.Definition.Abbreviations
import OntoFold.Proofs.Dependency.Reachability
import OntoFold.Proofs.Glossary.Unfolding
import OntoFold.Proofs.Glossary.Declaration
import OntoFold.Proofs.Folding.Records
import OntoFold.Proofs.Semantics.Interpretation
import OntoFold.Proofs.Semantics.Glossaries
import OntoFold.Proofs.Folding.Models
import OntoFold.Proofs.Glossary.Closed
import OntoFold.Proofs.Rewriting.Sizes
import OntoFold.Proofs.Rewriting.Flaws
import OntoFold.Proofs.Codec.ChildCounts
import OntoFold.Proofs.Ontology.Admission
import OntoFold.Proofs.Folding.WellFormedness
import OntoFold.Proofs.Glossary.Discovery
import OntoFold.Proofs.Folding.Lossless
import OntoFold.Proofs.Folding.Minimality
import OntoFold.Proofs.Folding.SameUnfolding
import OntoFold.Proofs.Arena.Soundness
import OntoFold.Proofs.Arena.Edits
import OntoFold.Proofs.Arena.Scripts
import OntoFold.Proofs.Arena.Nesting
import OntoFold.Proofs.Arena.Transplants
import OntoFold.Proofs.Arena.DeadAddresses
import OntoFold.Proofs.Rewriting.Reassembly
import OntoFold.Proofs.Rewriting.Fitting
import OntoFold.Proofs.Rewriting.Safety
import OntoFold.Proofs.Dependency.Chains
import OntoFold.Proofs.Folding.Savings
import OntoFold.Proofs.Folding.Shrinking
import OntoFold.Proofs.Glossary.Acceptance
import OntoFold.Proofs.Census.Levels
import OntoFold.Proofs.Census.Traversals
import OntoFold.Proofs.Census.Occurrences
import OntoFold.Proofs.Census.Survey
import OntoFold.Proofs.Folding.Repetitions
import OntoFold.Proofs.Folding.Totality
import OntoFold.Proofs.Dependency.Rounds
import OntoFold.Proofs.Folding.Outermost
import OntoFold.Proofs.Folding.AllOrNothing
import OntoFold.Proofs.Glossary.Definitions
import OntoFold.Proofs.Glossary.Representatives
import OntoFold.Proofs.Definition.Synonyms
import OntoFold.Proofs.Text.Quotation
import OntoFold.Proofs.Text.Delimiters
import OntoFold.Proofs.Text.Values
import OntoFold.Proofs.Text.Rendering
import OntoFold.Proofs.Glossary.Ties
