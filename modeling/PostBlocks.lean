import PostBlocks.Main
import PostBlocks.Proofs.Block.Diagnosis
import PostBlocks.Proofs.Block.Drawing
import PostBlocks.Proofs.Block.Escapes
import PostBlocks.Proofs.Block.Runs
import PostBlocks.Proofs.Block.Stripped
import PostBlocks.Proofs.Block.Tree
import PostBlocks.Proofs.Command.Failure
import PostBlocks.Proofs.Inline.Meaning
import PostBlocks.Proofs.Inline.Order
import PostBlocks.Proofs.Post.Agreement
import PostBlocks.Proofs.Post.Media
import PostBlocks.Proofs.Post.Outcome
import PostBlocks.Proofs.Post.Outline
import PostBlocks.Proofs.Record.Dates
import PostBlocks.Proofs.Record.Slug
